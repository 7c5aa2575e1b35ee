import GraphScript.Text.Printable

/-!
# Displayed texts

A message shows a text between quotation marks so that every character of it can be told: a
backslash stands before a backslash and before the mark in use, line feeds, carriage returns
and tabs have letters, other unprintable characters are given by their code point in
hexadecimal, and printable characters stand for themselves.

The mark is the single one, unless the text holds single marks and no double ones.
-/

namespace GraphScript.Text

/-- The mark around texts, `'`. -/
def singleMark : Char := '\x27'

/-- The mark around texts that hold single marks only, `"`. -/
def doubleMark : Char := '\x22'

/-- The mark to be put around a text. -/
def displayMark (cs : List Char) : Char :=
  if cs.contains singleMark && !cs.contains doubleMark then doubleMark else singleMark

/-- The digits of a number in hexadecimal, in lower case and filled with zeros to a width. -/
def hexadecimal (width n : Nat) : List Char :=
  let digits := Nat.toDigits 16 n
  List.replicate (width - digits.length) '0' ++ digits

/-- A code point in hexadecimal, in the narrowest of the three forms that holds it. -/
def displayCode (n : Nat) : List Char :=
  if n < 0x100 then '\\' :: 'x' :: hexadecimal 2 n
  else if n < 0x10000 then '\\' :: 'u' :: hexadecimal 4 n
  else '\\' :: 'U' :: hexadecimal 8 n

/-- A character of a text shown between the given marks. -/
def displayChar (mark c : Char) : List Char :=
  if c = mark || c = '\\' then ['\\', c]
  else if c = '\n' then ['\\', 'n']
  else if c = '\r' then ['\\', 'r']
  else if c = '\t' then ['\\', 't']
  else if isPrintable c then [c]
  else displayCode c.toNat

/-- A text between marks, with every character of it told. -/
def display (s : String) : String :=
  let cs := s.toList
  let mark := displayMark cs
  String.ofList (mark :: cs.flatMap (displayChar mark) ++ [mark])

end GraphScript.Text
