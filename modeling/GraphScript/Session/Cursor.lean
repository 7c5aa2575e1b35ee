import GraphScript.Session

/-!
# Walks over edges

A cursor goes along the shelf of edges of a graph and stops at each edge that meets a node. It
begins only when it is first asked for an edge. From then on it remembers how many edges there
were, the place that it has come to, and how many edges it may still pass.

* **As long as the edges stay**, it stops at each matching edge once, in the order of the table;
  what happens to their attributes does not matter.
* **If their number is another one** when it is asked again, it breaks off, whether or not it
  would have stopped again.
* **If edges went and as many came**, it goes on from its place. When the edges have been moved
  together since, there may be edges in front of that place that it never passed. It breaks off
  at an edge beyond the number that there were.

A cursor that came to its end or broke off has no more edges to show.
-/

namespace GraphScript.Cursor

/-- Goes on from a place until an edge meets the node, with at most `left` edges to be passed.
Empty places do not count. -/
def scan (side : Side) (node : String) (size : Nat) :
    (place left : Nat) → List (Option (Edge × Nat)) → Except Error Edge × Progress
  | _, _, [] => (.error .exhausted, .finished)
  | place, left, none :: rest => scan side node size (place + 1) left rest
  | _, 0, some _ :: _ => (.error .rekeyed, .finished)
  | place, left + 1, some (edge, _) :: rest =>
    if edge.meets side node then (.ok edge, .walking size (place + 1) left)
    else scan side node size (place + 1) left rest

/-- The next edge of a walk over a shelf of edges, and how far the walk has come then. -/
def next (c : Cursor) (edges : Shelf Edge Nat) : Except Error Edge × Progress :=
  match c.progress with
  | .waiting => scan c.side c.node edges.size 0 edges.size edges.places
  | .walking size place left =>
    if edges.size = size then scan c.side c.node size place left (edges.places.drop place)
    else (.error .resized, .finished)
  | .finished => (.error .exhausted, .finished)

end GraphScript.Cursor
