import GraphScript.Proofs.Histories

/-!
# What failures leave behind

A command that fails leaves all graphs and stores as they were, with one exception: where attributes
are mentioned, a malformed pair is met only when the pairs in front of it have been taken.

* **Refusals** (`Session.FailsSafely.unchanged`): all other causes are found before anything is
  done. Only a walk that comes to its end or breaks off takes note of that.
* **Breaking off** (`Session.FailsSafely.front`): the session is the one after the same command with
  the *front* of what it mentions (`Command.front`), which is the pairs before the first malformed
  one and none of the named attributes. As that command succeeds, the node or the edge is there.

This is so in every session, whether or not commands lead to it.
-/

namespace GraphScript

/-! ### Failures and fronts -/

/-- Why a reply is a failure, if it is one. A rendering may fail although there is a report. -/
def Reply.failure? : Except Error Reply → Option Error
  | .error e => some e
  | .ok (.report r) =>
    match r.outcome with
    | .error e => some e
    | .ok _ => none
  | .ok _ => none

/-- What never answers with a report fails only with an error. -/
theorem Reply.eq_error_of_failure?_map {α : Type} {outcome : Except Error α} {f : α → Reply}
    {e : Error} (hf : ∀ a, failure? (.ok (f a)) = none) (h : failure? (outcome.map f) = some e) :
    outcome = .error e := by
  cases outcome with
  | error e' => exact congrArg Except.error (Option.some.inj h)
  | ok a => cases (hf a).symm.trans h

/-- The pairs before the first malformed one, and no named attributes. -/
def Mentions.front (m : Mentions) : Mentions := ⟨m.pairs.takeWhile (·.length == 2), ∅⟩

namespace Attributes.Edit

/-- What a change takes that is mentioned. -/
def mentions? : Edit → Option Mentions
  | merge mentions => some mentions
  | _ => none

/-- The same change with the front of what it mentions. -/
def front : Edit → Edit
  | merge mentions => merge mentions.front
  | change => change

end Attributes.Edit

namespace GraphEdit

/-- What a change takes that is mentioned. -/
def mentions? : GraphEdit → Option Mentions
  | addNode _ mentions _ => some mentions
  | addEdge _ mentions _ => some mentions
  | _ => none

/-- The same change with the front of what it mentions. -/
def front : GraphEdit → GraphEdit
  | addNode node mentions keep => addNode node mentions.front keep
  | addEdge item mentions keep => addEdge item mentions.front keep
  | change => change

end GraphEdit

namespace Command

/-- What a command takes that is mentioned. -/
def mentions? : Command → Option Mentions
  | edit _ change => change.mentions?
  | editStore _ change => change.mentions?
  | _ => none

/-- What is wrong with the first malformed pair that a command mentions, if there is one. -/
def fault? (c : Command) : Option Error := c.mentions?.bind (·.fault?)

/-- The same command with the front of what it mentions. -/
def front : Command → Command
  | edit g change => edit g change.front
  | editStore name change => editStore name change.front
  | c => c

/-- Commands that ask for something and do nothing. -/
def isQuestion : Command → Bool
  | ask _ _ | contents _ | subgraphs _ | askStore _ _ | compareStores _ _ => true
  | _ => false

end Command

/-- The item that a change is given where it takes an edge, to add it or to write at it. -/
def GraphEdit.givenEdge? : GraphEdit → Option Item
  | addEdge item _ _ => some item
  | setEdgeAttr item _ _ => some item
  | setItem index _ =>
    match Address.ofItem index with
    | .ok (.edge target _) => some target
    | _ => none
  | _ => none

/-- The node or the edge that a command adds is there. -/
def Session.HasEntry (s : Session) : Command → Prop
  | .edit g (.addNode node _ _) =>
    ∃ graph, s.graph? g = some graph ∧ graph.nodes.contains node = true
  | .edit g (.addEdge item _ _) =>
    ∃ graph, s.graph? g = some graph ∧ graph.hasEdge item = true
  | _ => True

/-! ### Merging the front -/

namespace Mentions

theorem firstFault?_takeWhile (pairs : List (List String)) :
    firstFault? (pairs.takeWhile (·.length == 2)) = none := by
  induction pairs with
  | nil => rfl
  | cons parts rest ih =>
    match parts with
    | [key, value] => exact ih
    | [] | [_] | _ :: _ :: _ :: _ => rfl

theorem wellFormed_takeWhile (pairs : List (List String)) :
    wellFormed (pairs.takeWhile (·.length == 2)) = wellFormed pairs := by
  induction pairs with
  | nil => rfl
  | cons parts rest ih =>
    match parts with
    | [key, value] => exact congrArg ((key, value) :: ·) ih
    | [] | [_] | _ :: _ :: _ :: _ => rfl

theorem fault?_front (m : Mentions) : m.front.fault? = none := firstFault?_takeWhile m.pairs

/-- A fault is a pair that is not made of two parts. -/
theorem eq_pairLength_of_fault? {m : Mentions} {e : Error} (h : m.fault? = some e) :
    ∃ n, e = .pairLength n := by
  rw [fault?] at h
  generalize m.pairs = pairs at h
  induction pairs with
  | nil => cases h
  | cons parts rest ih =>
    match parts, h with
    | [key, value], h => exact ih h
    | [], h | [_], h | _ :: _ :: _ :: _, h => exact ⟨_, (Option.some.inj h).symm⟩

/-- What is taken in front of a malformed pair is the front. -/
theorem taken_front {m : Mentions} {e : Error} (h : m.fault? = some e) :
    m.front.taken = m.taken := by
  rw [taken, fault?_front, taken, h, front, wellFormed_takeWhile, Table.entries_empty,
    List.append_nil]

end Mentions

/-- What is refused as an edge is named in the error. -/
theorem Kind.edgeOf_eq_error {kind : Kind} {item : Item} (h : ∀ edge, kind.edgeOf item ≠ .ok edge) :
    kind.edgeOf item = .error (.wrongEdge kind item) := by
  cases item with
  | edge edge =>
    have hk : edge.kind ≠ kind := fun hk => h edge (Kind.edgeOf_eq_ok_iff.mpr ⟨rfl, hk⟩)
    exact if_neg hk
  | _ => rfl

namespace Attributes

theorem merge_of_fault {m : Mentions} {e : Error} (h : m.fault? = some e) (a : Attributes) :
    a.merge m = (.error e, (a.merge m.front).2) := by
  rw [merge, merge, h, Mentions.taken_front h]

theorem merge_front (a : Attributes) (m : Mentions) : (a.merge m.front).1 = .ok () := by
  rw [merge, Mentions.fault?_front]

/-- A change to attributes that fails leaves them as they were, unless it meets a malformed pair. -/
theorem edit_of_error {a : Attributes} {change : Edit} {e : Error}
    (h : (a.edit change).1 = .error e) :
    (a.edit change).2 = a ∨ change.mentions?.bind (·.fault?) = some e := by
  cases change with
  | set | clear => cases h
  | erase key =>
    rw [edit] at h ⊢
    split at h
    · cases h
    · next hc => exact .inl (by rw [if_neg hc])
  | pop key =>
    rw [edit] at h ⊢
    split at h
    · cases h
    · exact .inl rfl
  | setDefault key value =>
    rw [edit] at h
    split at h <;> cases h
  | merge m =>
    refine .inr ?_
    rw [edit, merge] at h
    cases hm : m.fault? with
    | none =>
      rw [hm] at h
      cases h
    | some e' =>
      rw [hm] at h
      exact hm.trans (congrArg some (Except.error.inj h))

/-- A change to attributes that meets a malformed pair does what its front does, which succeeds. -/
theorem edit_of_fault {change : Edit} {e : Error}
    (h : change.mentions?.bind (·.fault?) = some e) (a : Attributes) :
    a.edit change = (.error e, (a.edit change.front).2) ∧ (a.edit change.front).1 = .ok none := by
  cases change with
  | merge m =>
    have hm : m.fault? = some e := h
    constructor
    · simp only [edit, Edit.front, merge_of_fault hm]
      rfl
    · simp only [edit, Edit.front, merge_front]
      rfl
  | _ => cases h

end Attributes

namespace Session

variable {s : Session} {g : Nat} {r : GraphRecord} {e : Error}

theorem mergeStore_of_fault {m : Mentions} (h : m.fault? = some e) (s : Session) (id : Nat)
    (keep : Option String) :
    s.mergeStore id m keep = (.error e, { (s.mergeStore id m.front keep).2 with
      handles := s.handles }) := by
  simp only [mergeStore, Attributes.merge_of_fault h, Attributes.merge_front]
  cases keep <;> rfl

theorem mergeStore_of_no_fault {m : Mentions} (h : m.fault? = none) (s : Session) (id : Nat)
    (keep : Option String) : ∃ attrs, (s.mergeStore id m keep).1 = .ok (some attrs) := by
  rw [mergeStore, Attributes.merge, h]
  exact ⟨_, rfl⟩

theorem handles_nodeStore (s : Session) (g : Nat) (r : GraphRecord) (node : String) :
    (s.nodeStore g r node).2.handles = s.handles := by
  rw [nodeStore]
  split <;> rfl

theorem handles_edgeStore (s : Session) (g : Nat) (r : GraphRecord) (edge : Edge) :
    (s.edgeStore g r edge).2.handles = s.handles := by
  rw [edgeStore]
  split <;> rfl

/-! ### Refusals -/

/-- An attribute that cannot be given a value is refused before a node or an edge is made for it. -/
theorem setAt_of_error {value : String} {address : Address}
    (h : (s.setAt g r value address).1 = .error e) : (s.setAt g r value address).2 = s := by
  unfold setAt at h ⊢
  split at h
  · cases h
  · cases h
  · next target key =>
    cases hgiven : r.kind.edgeOf target with
    | error e' => rfl
    | ok edge =>
      rw [hgiven] at h
      cases key with
      | text key => cases h
      | _ => rfl
  · rfl
  · rfl

/-- A change to a graph that fails leaves all as it was, unless it meets a malformed pair. -/
theorem edit_of_error {change : GraphEdit} (h : (s.edit g r change).1 = .error e)
    (hfault : (Command.edit g change).fault? ≠ some e) : (s.edit g r change).2 = s := by
  cases change with
  | rename name => cases h
  | addNode node mentions keep =>
    rw [edit] at h
    cases hm : mentions.fault? with
    | none =>
      obtain ⟨attrs, hok⟩ := mergeStore_of_no_fault hm (s.nodeStore g r node).2
        (s.nodeStore g r node).1 keep
      cases hok.symm.trans h
    | some e' =>
      simp only [mergeStore_of_fault hm] at h
      exact absurd (hm.trans (congrArg some (Except.error.inj h))) hfault
  | addEdge item mentions keep =>
    rw [edit] at h ⊢
    cases hgiven : r.kind.edgeOf item with
    | error e' => rfl
    | ok edge =>
      rw [hgiven] at h
      cases hm : mentions.fault? with
      | none =>
        obtain ⟨attrs, hok⟩ := mergeStore_of_no_fault hm (s.edgeStore g r edge).2
          (s.edgeStore g r edge).1 keep
        cases hok.symm.trans h
      | some e' =>
        simp only [mergeStore_of_fault hm] at h
        exact absurd (hm.trans (congrArg some (Except.error.inj h))) hfault
  | setAttr | setNodeAttr | setEdgeAttr => exact setAt_of_error h
  | setItem index value =>
    rw [edit] at h ⊢
    cases haddress : Address.ofItem index with
    | error e' => rfl
    | ok address =>
      rw [haddress] at h
      exact setAt_of_error h
  | eraseNode node =>
    rw [edit] at h ⊢
    split at h
    · cases h
    · next hc => rw [if_neg hc]
  | eraseEdge item =>
    rw [edit] at h ⊢
    split at h
    · cases h
    · rfl

theorem step_edit (hr : s.record g = .ok r) (change : GraphEdit) :
    s.step (.edit g change) =
      ((s.edit g r change).1.map fun attrs => attrs.elim .done .attributes,
        (s.edit g r change).2) := by
  rw [step, hr]

theorem setStore_store (s : Session) (id : Nat) : s.setStore id (s.store id) = s := by
  rcases Nat.lt_or_ge id s.stores.length with hid | hid
  · exact setStore_self hid
  · rw [setStore, List.set_eq_of_length_le hid]

/-- **A command that fails leaves graphs and stores as they were, unless it meets a malformed
pair.** Only that a walk has come to its end is noted. -/
theorem step_of_failure {c : Command} (h : Reply.failure? (s.step c).1 = some e)
    (hfault : c.fault? ≠ some e) :
    (s.step c).2 = { s with cursors := (s.step c).2.cursors } ∧
      ((∀ name, c ≠ .advance name) → (s.step c).2 = s) := by
  have hsame : (s.step c).2 = s → (s.step c).2 = { s with cursors := (s.step c).2.cursors } ∧
      ((∀ name, c ≠ .advance name) → (s.step c).2 = s) := by
    intro hs
    rw [hs]
    exact ⟨rfl, fun _ => rfl⟩
  cases c with
  | create kind name =>
    cases kind with
    | none => exact hsame rfl
    | some kind => cases h
  | edit g change =>
    refine hsame ?_
    cases hr : s.record g with
    | error e' => rw [step, hr]
    | ok r =>
      rw [step_edit hr] at h ⊢
      refine edit_of_error (Reply.eq_error_of_failure?_map ?_ h) hfault
      rintro (_ | attrs) <;> rfl
  | editStore name change =>
    refine hsame ?_
    rw [step]
    split
    · rfl
    · next id hid =>
      rw [step, hid] at h
      have herror : ((s.store id).edit change).1 = .error e :=
        Reply.eq_error_of_failure?_map (by rintro (_ | value) <;> rfl) h
      rcases Attributes.edit_of_error herror with hkept | hm
      · exact (congrArg (s.setStore id) hkept).trans (setStore_store s id)
      · exact absurd hm hfault
  | ask g query =>
    refine hsame ?_
    rw [step]
    split <;> rfl
  | contents | subgraphs | askStore | compareStores => exact hsame rfl
  | newStore name attrs => cases h
  | subgraph g name | graphStore g name =>
    refine hsame ?_
    rw [step]
    split
    · rfl
    · next r hr =>
      rw [step, hr] at h
      cases h
  | openCursor name g side node =>
    refine hsame ?_
    rw [step]
    split
    · rfl
    · next hr =>
      rw [step, hr] at h
      cases h
  | advance name =>
    refine ⟨?_, fun hc => absurd rfl (hc name)⟩
    rw [step]
    split
    · rfl
    · split <;> rfl

/-! ### Breaking off -/

/-- A change to a graph that meets a malformed pair does what its front does, except that nothing is
kept under a name. -/
theorem edit_of_fault {change : GraphEdit} (h : change.mentions?.bind (·.fault?) = some e) :
    (s.edit g r change).2 = { (s.edit g r change.front).2 with handles := s.handles } := by
  cases change with
  | addNode node mentions keep =>
    have hm : mentions.fault? = some e := h
    simp only [GraphEdit.front, edit, mergeStore_of_fault hm, handles_nodeStore]
  | addEdge item mentions keep =>
    have hm : mentions.fault? = some e := h
    simp only [GraphEdit.front, edit]
    cases r.kind.edgeOf item with
    | error e' => rfl
    | ok edge => simp only [mergeStore_of_fault hm, handles_edgeStore]
  | _ => cases h

/-- What a change adds is there afterwards, unless it is refused. -/
theorem exists_entry_edit (hr : s.graphs[g]? = some r) (change : GraphEdit) :
    ∃ graph, (s.edit g r change).2.graph? g = some graph ∧
      (∀ node, change.nodeEvent? = some (.created node) → graph.nodes.contains node = true) ∧
      ∀ edge, change.edgeEvent? r.kind = some (.created edge) →
        graph.edges.contains edge = true := by
  obtain ⟨name, hr'⟩ := exists_getElem?_edit hr change
  refine ⟨_, graph?_eq hr', fun node hnode => ?_, fun edge hedge => ?_⟩
  · rw [view, Table.contains_map, hnode]
    exact Event.contains_elim_act_created _ node _
  · rw [view, Table.contains_map, hedge, GraphRecord.after, Event.table_elim_place]
    exact Event.contains_elim_act_created _ edge _

/-- A change to a graph that breaks off at a malformed pair would have succeeded with its front, and
has added what it adds. -/
theorem edit_front_of_error {n : Nat} {change : GraphEdit} (hr : s.graphs[g]? = some r)
    (h : (s.edit g r change).1 = .error (.pairLength n))
    (hfault : change.mentions?.bind (·.fault?) = some (.pairLength n)) :
    (∃ attrs, (s.edit g r change.front).1 = .ok (some attrs)) ∧
      (s.edit g r change).2.HasEntry (.edit g change) := by
  obtain ⟨graph, hg, hnode, hedge⟩ := exists_entry_edit hr change
  cases change with
  | addNode node mentions keep =>
    exact ⟨mergeStore_of_no_fault mentions.fault?_front _ _ keep, graph, hg, hnode node rfl⟩
  | addEdge item mentions keep =>
    cases hgiven : r.kind.edgeOf item with
    | error e' =>
      have hrefused := Kind.edgeOf_eq_error fun edge hok => by
        cases hgiven.symm.trans hok
      simp only [edit, hrefused] at h
      cases h
    | ok edge =>
      obtain ⟨rfl, -⟩ := Kind.edgeOf_eq_ok_iff.mp hgiven
      simp only [GraphEdit.front, edit, hgiven]
      refine ⟨mergeStore_of_no_fault mentions.fault?_front _ _ keep, graph, ?_,
        hedge edge (Kind.creation?_of_ok hgiven)⟩
      simpa only [edit, hgiven] using hg
  | _ => cases hfault

theorem record_eq_error (h : s.record g = .error e) : e = .unknownGraph g := by
  rw [record] at h
  split at h
  · cases h
  · exact (Except.error.inj h).symm

theorem handle_eq_error {name : String} (h : s.handle name = .error e) : e = .unknownName name := by
  rw [handle] at h
  split at h
  · cases h
  · exact (Except.error.inj h).symm

/-- **A command with a malformed pair does what it does with the front of what it mentions**, except
that nothing is kept under a name. -/
theorem step_of_fault {c : Command} (h : c.fault? = some e) :
    (s.step c).2 = { (s.step c.front).2 with handles := s.handles } := by
  cases c with
  | edit g change =>
    rw [Command.front]
    cases hr : s.record g with
    | error e' => rw [step, step, hr]
    | ok r =>
      rw [step_edit hr, step_edit hr]
      exact edit_of_fault h
  | editStore name change =>
    rw [Command.front, step, step]
    cases s.handle name with
    | error e' => rfl
    | ok id =>
      have hattrs := congrArg Prod.snd (Attributes.edit_of_fault h (s.store id)).1
      exact congrArg (s.setStore id) hattrs
  | _ => cases h

/-- A command that breaks off at a malformed pair would have succeeded with the front of what it
mentions, and has added what it adds. -/
theorem front_of_failure {c : Command} (h : Reply.failure? (s.step c).1 = some e)
    (hfault : c.fault? = some e) :
    (∃ attrs, (s.step c.front).1 = .ok (.attributes attrs)) ∧ (s.step c).2.HasEntry c := by
  obtain ⟨m, -, hm⟩ := Option.bind_eq_some_iff.mp hfault
  obtain ⟨n, rfl⟩ := Mentions.eq_pairLength_of_fault? hm
  cases c with
  | edit g change =>
    cases hr : s.record g with
    | error e' =>
      rw [step, hr, record_eq_error hr] at h
      cases h
    | ok r =>
      rw [step_edit hr] at h
      obtain ⟨⟨attrs, hok⟩, hentry⟩ := edit_front_of_error (record_eq_ok_iff.mp hr)
        (Reply.eq_error_of_failure?_map (by rintro (_ | attrs) <;> rfl) h) hfault
      rw [Command.front, step_edit hr, step_edit hr, hok]
      exact ⟨⟨attrs, rfl⟩, hentry⟩
  | editStore name change =>
    cases hid : s.handle name with
    | error e' =>
      rw [step, hid, handle_eq_error hid] at h
      cases h
    | ok id =>
      have hok := (Attributes.edit_of_fault hfault (s.store id)).2
      refine ⟨⟨((s.store id).edit change.front).2, ?_⟩, trivial⟩
      rw [Command.front, step, hid]
      simp only [editStore, hok]
      rfl
  | _ => cases hfault

/-! ### The whole session -/

/-- An item that is no edge of the kind of the graph is refused, whatever is mentioned with it. -/
theorem step_edit_of_wrongEdge (hr : s.record g = .ok r) {change : GraphEdit} {item : Item}
    (hitem : change.givenEdge? = some item) (hwrong : ∀ edge, r.kind.edgeOf item ≠ .ok edge) :
    s.step (.edit g change) = (.error (.wrongEdge r.kind item), s) := by
  have hrefused := Kind.edgeOf_eq_error hwrong
  rw [step_edit hr]
  cases change with
  | addEdge item' mentions keep =>
    obtain rfl := Option.some.inj hitem
    simp only [edit, hrefused]
    rfl
  | setEdgeAttr item' key value =>
    obtain rfl := Option.some.inj hitem
    simp only [edit, setAt, hrefused]
    rfl
  | setItem index value =>
    rw [GraphEdit.givenEdge?] at hitem
    split at hitem
    · next target key haddress =>
      obtain rfl := Option.some.inj hitem
      simp only [edit, haddress, setAt, hrefused]
      rfl
    · cases hitem
  | _ => cases hitem

/-- What can be left behind by commands that fail. -/
structure FailsSafely (s : Session) : Prop where
  /-- A command that fails for any other cause than a malformed pair leaves the session as it was,
  except that a walk that has come to its end or has broken off is over. -/
  unchanged (c : Command) (e : Error) (h : Reply.failure? (s.step c).1 = some e)
    (hfault : c.fault? ≠ some e) :
    (s.step c).2 = { s with cursors := (s.step c).2.cursors } ∧
      ((∀ name, c ≠ .advance name) → (s.step c).2 = s)
  /-- A command with a malformed pair, whether or not it comes to this pair, leaves the session
  behind that the same command with the front of what it mentions leaves behind, except that nothing
  is kept under a name. -/
  front (c : Command) (e : Error) (hfault : c.fault? = some e) :
    (s.step c).2 = { (s.step c.front).2 with handles := s.handles }
  /-- If it comes to this pair, the command with the front succeeds, and the node or the edge that
  it adds is there. -/
  entry (c : Command) (e : Error) (h : Reply.failure? (s.step c).1 = some e)
    (hfault : c.fault? = some e) :
    (∃ attrs, (s.step c.front).1 = .ok (.attributes attrs)) ∧ (s.step c).2.HasEntry c
  /-- An edge of the other kind, or what is no edge, is refused wherever an edge is to be added or
  written at, and nothing is changed, whatever is mentioned with it. -/
  wrongEdge (g : Nat) (r : GraphRecord) (hr : s.graphs[g]? = some r) (change : GraphEdit)
    (item : Item) (hitem : change.givenEdge? = some item)
    (hwrong : ∀ edge, item = .edge edge → edge.kind ≠ r.kind) :
    s.step (.edit g change) = (.error (.wrongEdge r.kind item), s)
  /-- An index of other than two parts is refused, and nothing is changed. -/
  indexLength (g : Nat) (r : GraphRecord) (hr : s.graphs[g]? = some r) (parts : List Item)
    (value : String) (hparts : parts.length ≠ 2) :
    s.step (.edit g (.setItem (.tuple parts) value)) = (.error (.pairLength parts.length), s)
  /-- Questions change nothing, whether or not there is an answer. -/
  question (c : Command) (hc : c.isQuestion = true) : (s.step c).2 = s

/-- **Failures leave behind what was there before, or what the part in front of a malformed pair
has done**, in every session. -/
theorem failsSafely (s : Session) : s.FailsSafely where
  unchanged _ _ h hfault := step_of_failure h hfault
  front _ _ hfault := step_of_fault hfault
  entry _ _ h hfault := front_of_failure h hfault
  wrongEdge g r hr change item hitem hwrong := by
    refine step_edit_of_wrongEdge (record_eq_ok_iff.mpr hr) hitem fun edge hok => ?_
    obtain ⟨hedge, hkind⟩ := Kind.edgeOf_eq_ok_iff.mp hok
    exact hwrong edge hedge hkind
  indexLength g r hr parts value hparts := by
    have haddress : Address.ofItem (.tuple parts) = .error (.pairLength parts.length) := by
      match parts, hparts with
      | [], _ | [_], _ | _ :: _ :: _ :: _, _ => simp only [Address.ofItem]
      | [_, _], hparts => exact absurd rfl hparts
    rw [step_edit (record_eq_ok_iff.mpr hr)]
    simp only [edit, haddress]
    rfl
  question c hc := by
    cases c with
    | ask g query =>
      rw [step]
      split <;> rfl
    | contents | subgraphs | askStore | compareStores => rfl
    | _ => cases hc

/-- What is mentioned behind a malformed pair is not taken, but the node is there. -/
example :
    (((run {} [.create (some .directed) "", .edit 0 (.addNode "n"
      ⟨[["a", "1"], ["b"], ["c", "2"]], ⟨[("d", "3")]⟩⟩ none)]).2.graph? 0).map (·.nodes)) =
        some ⟨[("n", ⟨[("a", "1")]⟩)]⟩ := by
  rfl

end Session

end GraphScript
