import PatternGraph.Graph.Basic

/-!
# Graphs as text

* `NodeKind.display`: a node without its successors;
* `Graph.display`: a line for the graph and one for every node, the index in four columns.
-/

namespace PatternGraph

/-- Bounds in braces; without an upper bound the comma stands last. -/
def Bounds.display (b : Bounds) : String :=
  match b.max with
  | some max => s!"\x7b{b.min},{max}\x7d"
  | none => s!"\x7b{b.min},\x7d"

/-- A test on one character; a literal stands in single quotes. -/
def CharTest.display : CharTest → String
  | .literal c => "'" ++ escapeAlone c ++ "'"
  | .any => "ANY"
  | .oneOf k => "CLASS " ++ k.display

/-- A node without its successors. -/
def NodeKind.display : NodeKind → String
  | .test t => t.display
  | .join => "EMPTY"
  | .groupOpen group => s!"OPEN({group})"
  | .groupClose group => s!"CLOSE({group})"
  | .terminal => "TERMINAL"
  | .backref group => s!"RECALL({group})"
  | .repetition bounds exit => "REPEAT" ++ bounds.display ++ s!" exit={exit}"
  | .anchor .atStart => "^"
  | .anchor .atEnd => "$"

/-- The line of the node with index `id`. -/
def Node.line (id : Nat) (n : Node) : String :=
  String.ofList ((toString id).toList.leftpad 4 ' ') ++ ": " ++ n.kind.display ++ " -> [" ++
    String.intercalate ", " (n.next.map toString) ++ "]\n"

/-- The whole graph. -/
def Graph.display (g : Graph) : String :=
  g.nodes.toList.zipIdx.foldl (fun out (n, id) => out ++ n.line id)
    s!"start: {g.start}, groups: {g.groups}\n"

end PatternGraph
