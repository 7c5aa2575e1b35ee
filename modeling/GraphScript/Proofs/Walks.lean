import GraphScript.Proofs.Histories

/-!
# Walks that are broken up by other commands

A walk over the edges of a graph goes on one edge at a time, and any commands may come in between.

* **On a shelf that stays as it is** (`Cursor.OnTrack`), one more step answers the first of the
  edges that are still *ahead* and leaves the others ahead (`Cursor.OnTrack.next`). Merging
  attributes, and all else that is no event of the edges, leaves the shelf as it is.
* **On a shelf with another number of entries**, the next step breaks the walk off
  (`Cursor.next_of_size_ne`).
* **A walk that is over stays over**, whatever happens to the edges.

`Session.Walk` ties a walk to the session that keeps it, and the three facts are carried along a run
with it.
-/

namespace GraphScript

/-! ### One step of a walk -/

namespace Cursor

/-- The edges on a row of places that meet a node at a side. -/
def among (side : Side) (node : String) (places : List (Option (Edge × Nat))) : List Edge :=
  ((places.filterMap id).map (·.1)).filter (·.meets side node)

/-- The edges on a shelf that a walk has not come to yet and would stop at. -/
def ahead (c : Cursor) (edges : Shelf Edge Nat) : List Edge :=
  match c.progress with
  | .waiting => among c.side c.node edges.places
  | .walking _ place _ => among c.side c.node (edges.places.drop place)
  | .finished => []

/-- The number of edges that there were when a walk began, if it is under way. -/
def size? (c : Cursor) : Option Nat :=
  match c.progress with
  | .walking size _ _ => some size
  | _ => none

/-- A walk that is under way has as many edges to pass as there are behind its place, and there are
as many edges as there were when it began. -/
def OnTrack (c : Cursor) (edges : Shelf Edge Nat) : Prop :=
  ∀ size place left, c.progress = .walking size place left →
    size = edges.size ∧ left = ((edges.places.drop place).filterMap id).length

/-- A walk after one more step along a shelf. -/
def onward (c : Cursor) (edges : Shelf Edge Nat) : Cursor :=
  { c with progress := (c.next edges).2 }

/-- What a walk comes to on a row of places, when it may pass as many edges as there are: it stops
at the first of the edges that it would stop at, with as many to pass as are behind it. -/
inductive Comes (side : Side) (node : String) (size place : Nat)
    (places : List (Option (Edge × Nat))) : Except Error Edge × Progress → Prop where
  | ends (h : among side node places = []) :
    Comes side node size place places (.error .exhausted, .finished)
  | stops (e : Edge) (n : Nat) (h : among side node places = e :: among side node (places.drop n)) :
    Comes side node size place places
      (.ok e, .walking size (place + n) ((places.drop n).filterMap id).length)

/-- A place that is passed over counts as one more in front of the others. -/
theorem Comes.pass {side : Side} {node : String} {size place : Nat} {p : Option (Edge × Nat)}
    {rest : List (Option (Edge × Nat))} {outcome : Except Error Edge × Progress}
    (h : Comes side node size (place + 1) rest outcome)
    (hp : among side node (p :: rest) = among side node rest) :
    Comes side node size place (p :: rest) outcome := by
  cases h with
  | ends h => exact .ends (hp.trans h)
  | stops e n h =>
    have hplace : place + 1 + n = place + (n + 1) := by omega
    rw [hplace]
    exact .stops e (n + 1) (hp.trans h)

theorem comes_scan (side : Side) (node : String) (size place : Nat)
    (places : List (Option (Edge × Nat))) :
    Comes side node size place places
      (scan side node size place (places.filterMap id).length places) := by
  induction places generalizing place with
  | nil => exact .ends rfl
  | cons p rest ih =>
    cases p with
    | none => exact (ih (place + 1)).pass rfl
    | some entry =>
      have hlength : ((some entry :: rest).filterMap id).length =
          (rest.filterMap id).length + 1 := rfl
      rw [hlength, scan]
      cases hmeets : entry.1.meets side node with
      | true => exact .stops entry.1 1 (List.filter_cons_of_pos hmeets)
      | false =>
        exact (ih (place + 1)).pass (List.filter_cons_of_neg (Bool.eq_false_iff.mp hmeets))

variable {c : Cursor} {edges : Shelf Edge Nat}

/-- The edges ahead of a walk that has not begun are all that it will stop at. -/
theorem ahead_waiting (h : c.progress = .waiting) (edges : Shelf Edge Nat) :
    c.ahead edges = edges.table.keys.filter (·.meets c.side c.node) := by
  rw [ahead, h]
  rfl

/-- A walk that is not over goes on from its place. -/
theorem OnTrack.comes (h : c.OnTrack edges) (hc : c.progress ≠ .finished) :
    ∃ place, c.ahead edges = among c.side c.node (edges.places.drop place) ∧
      Comes c.side c.node edges.size place (edges.places.drop place) (c.next edges) := by
  cases hp : c.progress with
  | waiting =>
    rw [ahead, Cursor.next, hp]
    exact ⟨0, rfl, comes_scan c.side c.node edges.size 0 edges.places⟩
  | walking size place left =>
    obtain ⟨rfl, rfl⟩ := h size place left hp
    rw [ahead, Cursor.next, hp]
    refine ⟨place, rfl, ?_⟩
    simp only [if_true]
    exact comes_scan c.side c.node edges.size place _
  | finished => exact absurd hp hc

/-- **One step of a walk on a shelf that has stayed as it was** answers the first edge ahead, if
there is one, and the others are ahead then. -/
theorem OnTrack.next (h : c.OnTrack edges) :
    (c.next edges).1 = (c.ahead edges).head?.elim (.error .exhausted) .ok ∧
      (c.onward edges).OnTrack edges ∧ (c.onward edges).ahead edges = (c.ahead edges).tail := by
  by_cases hc : c.progress = .finished
  · have hnext : c.next edges = (.error .exhausted, .finished) := by rw [Cursor.next, hc]
    have hahead : c.ahead edges = [] := by rw [ahead, hc]
    have hc' : (c.onward edges).progress = .finished := congrArg Prod.snd hnext
    rw [hahead, ahead, hc', hnext]
    exact ⟨rfl, fun _ _ _ hp => (nomatch hc'.symm.trans hp), rfl⟩
  · obtain ⟨place, hahead, hcomes⟩ := h.comes hc
    have hc' : (c.onward edges).progress = (c.next edges).2 := rfl
    rw [hahead, ahead]
    generalize c.next edges = outcome at hcomes hc'
    cases hcomes with
    | ends hnone =>
      rw [hnone, hc']
      exact ⟨rfl, fun _ _ _ hp => (nomatch hc'.symm.trans hp), rfl⟩
    | stops e n hstop =>
      rw [List.drop_drop] at hstop hc'
      rw [hstop, hc']
      refine ⟨rfl, fun size place' left hp => ?_, rfl⟩
      obtain ⟨rfl, rfl, rfl⟩ := Progress.walking.inj (hc'.symm.trans hp)
      exact ⟨rfl, rfl⟩

/-- On a shelf with another number of entries than when it began, a walk breaks off. -/
theorem next_of_size_ne {size : Nat} (h : c.size? = some size) (hne : edges.size ≠ size) :
    c.next edges = (.error .resized, .finished) := by
  rw [size?] at h
  split at h
  · next size' place left hp =>
    obtain rfl := Option.some.inj h
    rw [Cursor.next, hp]
    exact if_neg hne
  · cases h

theorem scan_cases (side : Side) (node : String) (size place left : Nat)
    (places : List (Option (Edge × Nat))) :
    (∃ e, scan side node size place left places = (.error e, .finished)) ∨
      ∃ edge place' left', scan side node size place left places =
        (.ok edge, .walking size place' left') := by
  fun_induction scan side node size place left places with
  -- there are no more places, or there is an edge too many
  | case1 | case3 => exact .inl ⟨_, rfl⟩
  -- an empty place, or an edge that is passed over
  | case2 _ _ _ ih | case5 _ _ _ _ _ _ ih => exact ih
  | case4 => exact .inr ⟨_, _, _, rfl⟩

/-- A walk either shows an edge and remembers how many edges there were at first, or is over. -/
theorem next_cases (c : Cursor) (edges : Shelf Edge Nat) :
    (∃ e, c.next edges = (.error e, .finished)) ∨
      ∃ edge place left, c.next edges =
        (.ok edge, .walking (c.size?.getD edges.size) place left) := by
  cases hp : c.progress with
  | waiting =>
    rw [Cursor.next, size?, hp]
    exact scan_cases _ _ _ _ _ _
  | walking size place left =>
    rw [Cursor.next, size?, hp]
    by_cases hsize : edges.size = size
    · simp only [if_pos hsize]
      exact scan_cases _ _ _ _ _ _
    · exact .inl ⟨.resized, if_neg hsize⟩
  | finished =>
    rw [Cursor.next, hp]
    exact .inl ⟨_, rfl⟩

end Cursor

/-! ### Walks of a session -/

/-- The answer to the request with a number when edges are shown one by one. When all have been
shown, there are no more. -/
def Reply.shown (edges : List Edge) (i : Nat) : Except Error Reply :=
  match edges[i]? with
  | some e => .ok (.edge e)
  | none => .error .exhausted

namespace Command

/-- The command prepares a walk under a name. -/
def opens (name : String) : Command → Bool
  | openCursor other _ _ _ => other == name
  | _ => false

/-- The command goes on with the walk kept under a name. -/
def advances (name : String) : Command → Bool
  | advance other => other == name
  | _ => false

end Command

namespace Session

/-- What a walk answers in the course of commands. -/
def answers (s : Session) (name : String) : List Command → List (Except Error Reply)
  | [] => []
  | c :: cs =>
    (if c.advances name then [(s.step c).1] else []) ++ (s.step c).2.answers name cs

/-- A walk over the edges of a graph of the session is kept under a name. -/
structure Walk (s : Session) (name : String) (c : Cursor) : Prop where
  exclusive : s.Exclusive
  cursor : s.cursors.get? name = some c
  graph : c.graph < s.graphs.length

variable {s : Session} {g : Nat} {r : GraphRecord} {name : String} {c : Cursor}

/-! #### Commands that leave walks alone -/

theorem cursors_keep (s : Session) (name : Option String) (id : Nat) :
    (s.keep name id).cursors = s.cursors := by
  cases name <;> rfl

theorem cursors_nodeStore (s : Session) (g : Nat) (r : GraphRecord) (node : String) :
    (s.nodeStore g r node).2.cursors = s.cursors := by
  rw [nodeStore]
  split <;> rfl

theorem cursors_edgeStore (s : Session) (g : Nat) (r : GraphRecord) (edge : Edge) :
    (s.edgeStore g r edge).2.cursors = s.cursors := by
  rw [edgeStore]
  split <;> rfl

theorem cursors_mergeStore (s : Session) (id : Nat) (mentions : Mentions) (keep : Option String) :
    (s.mergeStore id mentions keep).2.cursors = s.cursors := by
  rw [mergeStore, Attributes.merge]
  cases mentions.fault? <;> cases keep <;> rfl

theorem cursors_setAt (s : Session) (g : Nat) (r : GraphRecord) (value : String)
    (address : Address) : (s.setAt g r value address).2.cursors = s.cursors := by
  unfold setAt
  split
  · rfl
  · exact cursors_nodeStore s g r _
  · split
    · rfl
    · exact cursors_edgeStore s g r _
    · rfl
  · rfl
  · rfl

theorem cursors_edit (s : Session) (g : Nat) (r : GraphRecord) (change : GraphEdit) :
    (s.edit g r change).2.cursors = s.cursors := by
  cases change with
  | rename name => rfl
  | addNode node mentions keep =>
    exact (cursors_mergeStore _ _ mentions keep).trans (cursors_nodeStore s g r node)
  | addEdge item mentions keep =>
    rw [edit]
    split
    · rfl
    · exact (cursors_mergeStore _ _ mentions keep).trans (cursors_edgeStore s g r _)
  | setAttr | setNodeAttr | setEdgeAttr => exact cursors_setAt s g r _ _
  | setItem index value =>
    rw [edit]
    split
    · exact cursors_setAt s g r value _
    · rfl
  | eraseNode | eraseEdge =>
    rw [edit]
    split <;> rfl

/-- Only a command that prepares a walk under a name or goes on with it changes this walk. -/
theorem get?_cursors_step {d : Command} (hopen : d.opens name = false)
    (hadvance : d.advances name = false) :
    (s.step d).2.cursors.get? name = s.cursors.get? name := by
  cases d with
  | create kind n => cases kind <;> rfl
  | edit g change =>
    rw [step]
    split
    · rfl
    · exact congrArg (·.get? name) (cursors_edit s g _ change)
  | subgraph | ask | editStore =>
    rw [step]
    split <;> rfl
  | contents | subgraphs | askStore | compareStores => rfl
  | graphStore g n =>
    rw [step]
    split
    · rfl
    · exact congrArg (·.get? name) (cursors_keep s n _)
  | newStore n attrs => rfl
  | openCursor n g side node =>
    rw [step]
    split
    · rfl
    · exact Table.get?_insert_of_ne _ _ hopen
  | advance n =>
    rw [step]
    split
    · rfl
    · split
      · rfl
      · exact Table.get?_insert_of_ne _ _ hadvance

theorem Exclusive.step (hs : s.Exclusive) (d : Command) : (s.step d).2.Exclusive :=
  (hs.moves_step d).keep Move.exclusive hs

theorem Exclusive.length_graphs_le_step (hs : s.Exclusive) (d : Command) :
    s.graphs.length ≤ (s.step d).2.graphs.length :=
  (hs.moves_step d).keep (P := fun s' => s.graphs.length ≤ s'.graphs.length)
    (fun hm h => Nat.le_trans h hm.length_graphs_le) (Nat.le_refl _)

theorem Walk.step_of_ne (h : s.Walk name c) {d : Command} (hopen : d.opens name = false)
    (hadvance : d.advances name = false) : (s.step d).2.Walk name c where
  exclusive := h.exclusive.step d
  cursor := (get?_cursors_step hopen hadvance).trans h.cursor
  graph := Nat.lt_of_lt_of_le h.graph (h.exclusive.length_graphs_le_step d)

/-- One step of a walk goes along the shelf of its graph. -/
theorem Walk.step_advance (h : s.Walk name c) :
    (s.step (.advance name)).1 = (c.next (s.edgeShelf c.graph)).1.map .edge ∧
      (s.step (.advance name)).2.Walk name (c.onward (s.edgeShelf c.graph)) := by
  obtain ⟨r, hr⟩ : ∃ r, s.graphs[c.graph]? = some r := ⟨_, List.getElem?_eq_getElem h.graph⟩
  have hstep : s.step (.advance name) = s.advance name c r := by
    simp only [step, h.cursor, record_eq_ok_iff.mpr hr]
  rw [edgeShelf_eq hr]
  refine ⟨by rw [hstep, advance], h.exclusive.step _, ?_, ?_⟩
  · rw [hstep, advance]
    exact Table.get?_insert_self _ _ _
  · exact Nat.lt_of_lt_of_le h.graph (h.exclusive.length_graphs_le_step _)

/-! #### Runs -/

theorem answers_advance (s : Session) (name : String) (cs : List Command) :
    s.answers name (.advance name :: cs) =
      (s.step (.advance name)).1 :: (s.step (.advance name)).2.answers name cs := by
  rw [answers, Command.advances, beq_self_eq_true, if_pos rfl, List.singleton_append]

theorem answers_of_ne (s : Session) {d : Command} (hd : d.advances name = false)
    (cs : List Command) : s.answers name (d :: cs) = (s.step d).2.answers name cs := by
  rw [answers, hd, if_neg Bool.false_ne_true, List.nil_append]

theorem eq_advance_of_advances {d : Command} (h : d.advances name = true) : d = .advance name := by
  cases d with
  | advance other => exact congrArg Command.advance (eq_of_beq h)
  | _ => cases h

/-- If no edge of its graph comes or goes in a run, the first command leaves the shelf as it is,
and none comes or goes in the rest of the run. -/
theorem Walk.step_of_calm (h : s.Walk name c) {d : Command} {cs : List Command}
    (hcalm : s.edgeHistory c.graph (d :: cs) = []) :
    (s.step d).2.edgeShelf c.graph = s.edgeShelf c.graph ∧
      (s.step d).2.edgeHistory c.graph cs = [] := by
  obtain ⟨hnone, hcalm⟩ := List.append_eq_nil_iff.mp hcalm
  have hevent : s.edgeEvent? c.graph d = none := Option.toList_eq_nil_iff.mp hnone
  refine ⟨?_, hcalm⟩
  rw [(h.exclusive.tables_step c.graph d).2, hevent]
  rfl

/-- **What holds along the commands of a run** for a walk that is not opened again, if it holds in
front of a command whenever it holds behind it. Only a command that goes on with the walk changes
it. -/
theorem Walk.along {P : Session → Cursor → List Command → Prop}
    (hnil : ∀ s c, s.Walk name c → P s c [])
    (hadvance : ∀ s c cs, s.Walk name c → (∀ d ∈ cs, d.opens name = false) →
      P (s.step (.advance name)).2 (c.onward (s.edgeShelf c.graph)) cs →
        P s c (.advance name :: cs))
    (hother : ∀ s c d cs, s.Walk name c → d.advances name = false →
      P (s.step d).2 c cs → P s c (d :: cs))
    {cs : List Command} (h : s.Walk name c) (hopen : ∀ d ∈ cs, d.opens name = false) :
    P s c cs := by
  induction cs generalizing s c with
  | nil => exact hnil s c h
  | cons d cs ih =>
    obtain ⟨hd, hlater⟩ := List.forall_mem_cons.mp hopen
    cases hdrives : d.advances name with
    | true =>
      obtain rfl := eq_advance_of_advances hdrives
      exact hadvance s c cs h hlater (ih h.step_advance.2 hlater)
    | false => exact hother s c d cs h hdrives (ih (h.step_of_ne hd hdrives) hlater)

/-- **As long as no edge comes or goes**, a walk answers the edges ahead, one by one and in order,
and from then on that there are no more. -/
theorem Walk.answers_eq {cs : List Command} {edges : Shelf Edge Nat} (h : s.Walk name c)
    (hedges : s.edgeShelf c.graph = edges) (hon : c.OnTrack edges)
    (hopen : ∀ d ∈ cs, d.opens name = false) (hcalm : s.edgeHistory c.graph cs = []) {i : Nat}
    {a : Except Error Reply} (ha : (s.answers name cs)[i]? = some a) :
    a = Reply.shown (c.ahead edges) i := by
  refine h.along (P := fun s c cs => s.edgeShelf c.graph = edges → c.OnTrack edges →
      s.edgeHistory c.graph cs = [] → ∀ i a, (s.answers name cs)[i]? = some a →
        a = Reply.shown (c.ahead edges) i)
    ?_ ?_ ?_ hopen hedges hon hcalm i a ha
  · intro s c _ _ _ _ i a ha
    cases ha
  · intro s c cs h _ ih hedges hon hcalm i a ha
    obtain ⟨hshelf, hcalm'⟩ := h.step_of_calm hcalm
    obtain ⟨hnext, hon', hahead⟩ := hon.next
    rw [hedges] at ih
    rw [answers_advance, h.step_advance.1, hedges] at ha
    cases i with
    | zero =>
      obtain rfl := Option.some.inj ha
      rw [hnext, Reply.shown, List.head?_eq_getElem?]
      cases (c.ahead edges)[0]? <;> rfl
    | succ i =>
      have hlater := ih (hshelf.trans hedges) hon' hcalm' i a ha
      rwa [hahead, Reply.shown, List.getElem?_tail] at hlater
  · intro s c d cs h hd ih hedges hon hcalm i a ha
    obtain ⟨hshelf, hcalm'⟩ := h.step_of_calm hcalm
    rw [answers_of_ne s hd] at ha
    exact ih (hshelf.trans hedges) hon hcalm' i a ha

/-- **A walk that is over stays over**, whatever comes or goes. -/
theorem Walk.answers_finished {cs : List Command} (h : s.Walk name c)
    (hc : c.progress = .finished) (hopen : ∀ d ∈ cs, d.opens name = false) :
    ∀ a ∈ s.answers name cs, a = .error .exhausted := by
  refine h.along (P := fun s c cs => c.progress = .finished →
    ∀ a ∈ s.answers name cs, a = .error .exhausted) ?_ ?_ ?_ hopen hc
  · exact fun s c _ _ a ha => absurd ha List.not_mem_nil
  · intro s c cs h _ ih hc a ha
    have hnext : c.next (s.edgeShelf c.graph) = (.error .exhausted, .finished) := by
      rw [Cursor.next, hc]
    rw [answers_advance, h.step_advance.1, hnext] at ha
    rcases List.mem_cons.mp ha with rfl | ha
    · rfl
    · exact ih (congrArg Prod.snd hnext) a ha
  · intro s c d cs _ hd ih hc
    rw [answers_of_ne s hd]
    exact ih hc

/-- After an error, a walk answers only that there are no more edges. -/
theorem Walk.pairwise_answers {cs : List Command} (h : s.Walk name c)
    (hopen : ∀ d ∈ cs, d.opens name = false) :
    (s.answers name cs).Pairwise fun a b => (∃ e, a = .error e) → b = .error .exhausted := by
  refine h.along (P := fun s c cs => (s.answers name cs).Pairwise fun a b =>
    (∃ e, a = .error e) → b = .error .exhausted) ?_ ?_ ?_ hopen
  · exact fun s c _ => List.Pairwise.nil
  · intro s c cs h hopen ih
    rw [answers_advance, h.step_advance.1]
    refine List.Pairwise.cons (fun b hb herror => ?_) ih
    obtain ⟨e, he⟩ := herror
    rcases c.next_cases (s.edgeShelf c.graph) with ⟨e', hnext⟩ | ⟨edge, place, left, hnext⟩
    · exact h.step_advance.2.answers_finished (congrArg Prod.snd hnext) hopen b hb
    · rw [hnext] at he
      cases he
  · intro s c d cs _ hd ih
    rw [answers_of_ne s hd]
    exact ih

/-- A walk that has answered with edges only is under way, and remembers how many edges there were
when it began. -/
theorem Walk.run {cs : List Command} {size : Nat} (h : s.Walk name c) (hc : c.size? = some size)
    (hopen : ∀ d ∈ cs, d.opens name = false)
    (hok : ∀ a ∈ s.answers name cs, ∃ e, a = .ok (.edge e)) :
    ∃ c', (s.run cs).2.Walk name c' ∧ c'.graph = c.graph ∧ c'.size? = some size := by
  refine h.along (P := fun s c cs => c.size? = some size →
    (∀ a ∈ s.answers name cs, ∃ e, a = .ok (.edge e)) →
      ∃ c', (s.run cs).2.Walk name c' ∧ c'.graph = c.graph ∧ c'.size? = some size)
    ?_ ?_ ?_ hopen hc hok
  · exact fun s c h hc _ => ⟨c, h, rfl, hc⟩
  · intro s c cs h _ ih hc hok
    rw [answers_advance, h.step_advance.1] at hok
    obtain ⟨⟨e, he⟩, hok⟩ := List.forall_mem_cons.mp hok
    rcases c.next_cases (s.edgeShelf c.graph) with ⟨e', hnext⟩ | ⟨edge, place, left, hnext⟩
    · rw [hnext] at he
      cases he
    · refine ih ?_ hok
      rw [Cursor.onward, Cursor.size?, hnext, hc]
      rfl
  · intro s c d cs _ hd ih hc hok
    rw [answers_of_ne s hd] at hok
    exact ih hc hok

/-- A walk that was opened and not gone on with waits. -/
theorem Walk.run_waiting {cs : List Command} (h : s.Walk name c)
    (hopen : ∀ d ∈ cs, d.opens name = false) (hadvance : ∀ d ∈ cs, d.advances name = false) :
    (s.run cs).2.Walk name c := by
  induction cs generalizing s with
  | nil => exact h
  | cons d cs ih =>
    obtain ⟨hd, hopen⟩ := List.forall_mem_cons.mp hopen
    obtain ⟨hd', hadvance⟩ := List.forall_mem_cons.mp hadvance
    exact ih (h.step_of_ne hd hd') hopen hadvance

/-- What is prepared when a walk is opened. -/
theorem walk_openCursor (hs : s.Exclusive) {side : Side} {node : String}
    (h : (s.step (.openCursor name g side node)).1 = .ok .done) :
    (s.step (.openCursor name g side node)).2.Walk name { graph := g, side, node } := by
  have hexclusive := hs.step (.openCursor name g side node)
  cases hr : s.record g with
  | error e =>
    rw [step, hr] at h
    cases h
  | ok r =>
    have hg := (List.getElem?_eq_some_iff.mp (record_eq_ok_iff.mp hr)).1
    rw [step, hr, Except.bind] at h hexclusive ⊢
    cases hside : r.kind.allows side with
    | error e =>
      rw [hside] at h
      cases h
    | ok u =>
      rw [hside] at hexclusive
      exact ⟨hexclusive, Table.get?_insert_self _ _ _, hg⟩

/-- How a walk goes on that is first asked for an edge when a graph has some edges, whatever
commands come later. -/
structure Shows (s : Session) (name : String) (g : Nat) (side : Side) (node : String)
    (edges : List Edge) (later : List Command) : Prop where
  /-- As long as no edge of the graph has come or gone since, the answers are the edges that meet
  the node at the side, in the order of the table and as they stand there, and then that there are
  no more. -/
  calm (hcalm : s.edgeHistory g (.advance name :: later) = []) (i : Nat) (a : Except Error Reply)
    (ha : (s.answers name (.advance name :: later))[i]? = some a) :
    a = Reply.shown (edges.filter (·.meets side node)) i
  /-- If there is another number of edges than there was, and the walk has not come to its end, it
  breaks off, whether or not there would have been another edge to show, and there are no more then,
  whether or not the number is ever again what it was. -/
  resized (hok : ∀ a ∈ s.answers name (.advance name :: later), ∃ e, a = .ok (.edge e))
    (graph : Graph) (hg : (s.run (.advance name :: later)).2.graph? g = some graph)
    (hsize : graph.edges.size ≠ edges.length) :
    let s' := (s.run (.advance name :: later)).2
    (s'.step (.advance name)).1 = .error .resized ∧
      ∀ cs, (∀ d ∈ cs, d.opens name = false) →
        ∀ a ∈ (s'.step (.advance name)).2.answers name cs, a = .error .exhausted
  /-- When there were no more edges once, or the walk broke off, there are never any more. -/
  ended : (s.answers name (.advance name :: later)).Pairwise fun a b =>
    (∃ e, a = .error e) → b = .error .exhausted

theorem size_graph? {graph : Graph} (hg : s.graph? g = some graph) :
    graph.edges.size = (s.edgeShelf g).size := by
  have hkeys := congrArg List.length (keys_graph? hg).2
  rwa [Table.keys, Table.keys, List.length_map, List.length_map] at hkeys

theorem Walk.shows (h : s.Walk name c) (hc : c.progress = .waiting)
    (hr : s.graphs[c.graph]? = some r) {later : List Command}
    (hlater : ∀ d ∈ later, d.opens name = false) :
    s.Shows name c.graph c.side c.node r.edges.table.keys later := by
  have hedges := edgeShelf_eq hr
  have hasked : ∀ d ∈ Command.advance name :: later, d.opens name = false := fun d hd => by
    rcases List.mem_cons.mp hd with rfl | hd
    · rfl
    · exact hlater d hd
  refine ⟨fun hcalm i a ha => ?_, fun hok graph hg hsize => ?_, h.pairwise_answers hasked⟩
  · have hon : c.OnTrack r.edges := fun size place left hp => nomatch hc.symm.trans hp
    rw [← Cursor.ahead_waiting hc]
    exact h.answers_eq hedges hon hasked hcalm ha
  · obtain ⟨hreply, hwalk⟩ := h.step_advance
    rw [hedges] at hreply hwalk
    rw [answers_advance] at hok
    -- with its first answer the walk begins to remember how many edges there are
    have hbegun : (c.onward r.edges).size? = some r.edges.table.keys.length := by
      obtain ⟨e, he⟩ := hok _ List.mem_cons_self
      rcases c.next_cases r.edges with ⟨e', hnext⟩ | ⟨edge, place, left, hnext⟩
      · rw [hreply, hnext] at he
        cases he
      · have hnone : c.size? = none := by rw [Cursor.size?, hc]
        rw [Cursor.onward, Cursor.size?, hnext, hnone, Table.keys, List.length_map]
        rfl
    obtain ⟨c', hwalk', hgraph, hsize'⟩ := hwalk.run hbegun hlater
      fun a ha => hok a (List.mem_cons_of_mem _ ha)
    obtain ⟨hreply', hover⟩ := hwalk'.step_advance
    have hnext : c'.next ((s.run (.advance name :: later)).2.edgeShelf c'.graph) =
        (.error .resized, .finished) := by
      refine Cursor.next_of_size_ne hsize' fun heq => hsize ?_
      rw [← heq, hgraph]
      exact size_graph? hg
    refine ⟨hreply'.trans ?_, fun cs hcs =>
      hover.answers_finished (congrArg Prod.snd hnext) hcs⟩
    exact congrArg (fun outcome => outcome.1.map Reply.edge) hnext

/-- **A walk shows the edges that there are when it is first asked for one**, in every session that
commands lead to. When it was opened makes no difference: edges that come before that are shown. -/
theorem answers_run (cs mid : List Command) (name : String) (g : Nat) (side : Side) (node : String)
    (hopened : ((run {} cs).2.step (.openCursor name g side node)).1 = .ok .done)
    (hmid : ∀ d ∈ mid, d.opens name = false ∧ d.advances name = false) :
    let s := (run {} (cs ++ .openCursor name g side node :: mid)).2
    ∃ graph, s.graph? g = some graph ∧ ∀ later, (∀ d ∈ later, d.opens name = false) →
      s.Shows name g side node graph.edges.keys later := by
  intro s
  have hwalk : s.Walk name { graph := g, side, node } := by
    have hs : (run {} cs).2.Exclusive :=
      (run_induction (P := fun _ => True) (fun _ _ => trivial) cs exclusive_empty trivial).1
    have hrun : s = (((run {} cs).2.step (.openCursor name g side node)).2.run mid).2 :=
      run_append {} cs _
    rw [hrun]
    exact (walk_openCursor hs hopened).run_waiting (fun d hd => (hmid d hd).1)
      fun d hd => (hmid d hd).2
  obtain ⟨r, hr⟩ : ∃ r, s.graphs[g]? = some r := ⟨_, List.getElem?_eq_getElem hwalk.graph⟩
  refine ⟨s.view r, graph?_eq hr, fun later hlater => ?_⟩
  rw [view, Table.keys_map]
  exact hwalk.shows rfl hr hlater

/-- An edge that comes after a walk was opened is shown, and one that is merged from its other end
is shown as it stands. When an edge goes after the first answer, the walk breaks off. -/
theorem answers_run_interleaved :
    let s := (run {} [.create (some .undirected) "",
      .edit 0 (.addEdge (.edge ⟨.undirected, "a", "b"⟩) {} none), .openCursor "w" 0 .either "b",
      .edit 0 (.addEdge (.edge ⟨.undirected, "b", "c"⟩) {} none)]).2
    let reversed : Command :=
      .edit 0 (.addEdge (.edge ⟨.undirected, "c", "b"⟩) ⟨[["k", "v"]], ∅⟩ none)
    let erased : Command := .edit 0 (.eraseEdge (.edge ⟨.undirected, "a", "b"⟩))
    (∀ i a, (s.answers "w" [.advance "w", reversed, .advance "w", .advance "w"])[i]? = some a →
      a = Reply.shown [⟨.undirected, "a", "b"⟩, ⟨.undirected, "b", "c"⟩] i) ∧
    ((s.run [.advance "w", erased]).2.step (.advance "w")).1 = .error .resized := by
  intro s reversed erased
  obtain ⟨graph, hg, hshows⟩ := answers_run
    [.create (some .undirected) "", .edit 0 (.addEdge (.edge ⟨.undirected, "a", "b"⟩) {} none)]
    [.edit 0 (.addEdge (.edge ⟨.undirected, "b", "c"⟩) {} none)] "w" 0 .either "b" (by rfl)
    (by simp [Command.opens, Command.advances])
  have hkeys : graph.edges.keys = [⟨.undirected, "a", "b"⟩, ⟨.undirected, "b", "c"⟩] := by
    have hs : s.graph? 0 = some
        { kind := .undirected
          edges := ⟨[(⟨.undirected, "a", "b"⟩, ∅), (⟨.undirected, "b", "c"⟩, ∅)]⟩ } := by rfl
    rw [Option.some.inj (hg.symm.trans hs)]
    rfl
  constructor
  · intro i a ha
    have hcalm := (hshows [reversed, .advance "w", .advance "w"]
      (by simp [reversed, Command.opens])).calm (by rfl) i a ha
    rwa [hkeys] at hcalm
  · have hok : ∀ a ∈ s.answers "w" [.advance "w", erased], ∃ e, a = .ok (.edge e) := by
      have hanswers : s.answers "w" [.advance "w", erased] =
          [.ok (.edge ⟨.undirected, "a", "b"⟩)] := by rfl
      simp [hanswers]
    refine ((hshows [erased] (by simp [erased, Command.opens])).resized hok
      { kind := .undirected, edges := ⟨[(⟨.undirected, "b", "c"⟩, ∅)]⟩ } (by rfl) ?_).1
    rw [hkeys]
    decide

end Session

end GraphScript
