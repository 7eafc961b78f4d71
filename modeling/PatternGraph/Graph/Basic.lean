import PatternGraph.Pattern.Basic

/-!
# Graphs of a pattern

A pattern is searched along a directed graph, which may have cycles. Nodes are known by their index;
the order of a node's successors is the order in which they are tried.

* `NodeKind`: what happens when the search comes to a node;
* `Node`, `Graph`.
-/

namespace PatternGraph

/-- What happens when the search comes to a node. -/
inductive NodeKind where
  /-- One character is read, which has to pass the test. -/
  | test (t : CharTest)
  /-- Paths meet, nothing else. -/
  | join
  /-- An instance of the group begins. -/
  | groupOpen (group : Nat)
  /-- The latest instance of the group ends. -/
  | groupClose (group : Nat)
  /-- The whole match ends, which has to be at the end of the subject. -/
  | terminal
  /-- The text of the group's latest instance is read once more. -/
  | backref (group : Nat)
  /-- A pass over a counted body is complete. The successors begin the next pass, `exit` is where
  to go after the last one. -/
  | repetition (bounds : Bounds) (exit : Nat)
  /-- The place has to be one of the ends of the subject. -/
  | anchor (a : Anchor)
deriving DecidableEq

/-- A node with its successors, in the order in which they are tried. -/
structure Node where
  kind : NodeKind
  next : List Nat
deriving DecidableEq

/-- The nodes of a pattern, the one where a search starts, the one where it has to arrive, and the
number of groups. -/
structure Graph where
  nodes : Array Node
  start : Nat
  terminal : Nat
  groups : Nat
deriving DecidableEq

/-- The number of nodes. -/
def Graph.size (g : Graph) : Nat := g.nodes.size

end PatternGraph
