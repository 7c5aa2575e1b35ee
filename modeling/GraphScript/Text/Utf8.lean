/-!
# Reading UTF-8

Bytes are read as UTF-8 whatever they are. Where they are no UTF-8, the longest piece that could
still have become a character, or else a single byte, is read as the replacement character
U+FFFD, and reading goes on with the byte behind it. A byte order mark is a character like any
other.

The reader takes one byte at a time. Between bytes it remembers how many continuation bytes the
character at hand still wants, and the least and the greatest byte that may come next: the
second byte of a character has a narrower range after some first bytes, which rules out long
forms, surrogates and code points beyond the last one.
-/

namespace GraphScript.Text.Utf8

/-- What stands for bytes that are no UTF-8. -/
def replacement : Char := '\uFFFD'

/-- A character that has begun. -/
structure Begun where
  /-- The number of bytes still wanted, at least one. -/
  owed : Nat
  /-- The least byte that may come next. -/
  low : Nat
  /-- The greatest byte that may come next. -/
  high : Nat
  /-- The bits of the code point so far. -/
  bits : Nat

/-- What the reader remembers between two bytes. -/
structure Reader where
  /-- The characters read, the latest first. -/
  done : List Char := []
  /-- The character at hand. -/
  begun : Option Begun := none

/-- The character that begins with a byte above the ASCII range, if one does. -/
def Begun.ofByte? (b : Nat) : Option Begun :=
  if b < 0xC2 then none
  else if b < 0xE0 then some ⟨1, 0x80, 0xBF, b - 0xC0⟩
  else if b = 0xE0 then some ⟨2, 0xA0, 0xBF, 0⟩
  else if b = 0xED then some ⟨2, 0x80, 0x9F, 0xD⟩
  else if b < 0xF0 then some ⟨2, 0x80, 0xBF, b - 0xE0⟩
  else if b = 0xF0 then some ⟨3, 0x90, 0xBF, 0⟩
  else if b < 0xF4 then some ⟨3, 0x80, 0xBF, b - 0xF0⟩
  else if b = 0xF4 then some ⟨3, 0x80, 0x8F, 4⟩
  else none

namespace Reader

/-- Takes a byte between two characters. -/
def start (done : List Char) (b : Nat) : Reader :=
  if b < 0x80 then ⟨Char.ofNat b :: done, none⟩
  else
    match Begun.ofByte? b with
    | some begun => ⟨done, some begun⟩
    | none => ⟨replacement :: done, none⟩

/-- Takes a byte. One that cannot go on with the character at hand ends it, is not lost, and
begins another one. -/
def feed (r : Reader) (byte : UInt8) : Reader :=
  let b := byte.toNat
  match r.begun with
  | none => start r.done b
  | some c =>
    if c.low ≤ b ∧ b ≤ c.high then
      let bits := c.bits * 64 + (b - 0x80)
      if c.owed = 1 then ⟨Char.ofNat bits :: r.done, none⟩
      else ⟨r.done, some ⟨c.owed - 1, 0x80, 0xBF, bits⟩⟩
    else start (replacement :: r.done) b

/-- The characters read, in order. A character that was still wanting bytes is replaced. -/
def finish (r : Reader) : List Char :=
  match r.begun with
  | none => r.done.reverse
  | some _ => (replacement :: r.done).reverse

end Reader

/-- The characters that bytes are read as. -/
def decode (bytes : List UInt8) : List Char := (bytes.foldl Reader.feed {}).finish

end GraphScript.Text.Utf8
