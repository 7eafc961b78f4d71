import PatternGraph.Graph.Basic
import PatternGraph.Pattern.Reading

/-!
# Wiring a graph in one pass

The graph of a pattern can be built while the pattern is read, without a tree: each construct adds
its nodes at once, and edges are added when it is known where they lead. What has been built is
referred to by index. The pass stops with a slip where an index is out of range, or where something
is read that the grammar does not have at that place.

* `Slip`, `Halt`: why a pass stops, by a slip of its own or by a fault of the pattern;
* `Junction`, `Latest`, `Wiring`: the state;
* `Wiring.push`, `Wiring.connect`: a node is added, an edge is added;
* `Wiring.next`: one construct, `Wiring.toEnd`: all of them;
* `wire`: the graph of a whole pattern.
-/

namespace PatternGraph

/-- What must not happen while a graph is wired. -/
inductive Slip where
  /-- There is no node with this index. -/
  | noNode (node : Nat)
  /-- No quantifier begins with this character. -/
  | noQuantifier (op : Char)
  /-- A range whose first character is above its last one. -/
  | reversedRange (first last : Char)
  /-- There are more constructs than characters. -/
  | endless
deriving DecidableEq

/-- Why a graph is not wired to its end. -/
inductive Halt where
  | fault (f : Fault)
  | slip (s : Slip)
deriving DecidableEq

/-- Where the branches of a group, or of the whole pattern, begin and end. -/
structure Junction where
  /-- All branches begin here. -/
  opening : Nat
  /-- All branches end here. -/
  close : Nat
  /-- What stands before the group ends here. -/
  before : Nat
  /-- Where the group begins in the pattern. -/
  offset : Nat

/-- What has just been read, and may be quantified or not. -/
inductive Latest where
  /-- A branch begins here, or an anchor stands here. -/
  | nothing
  /-- An atom from one node to another, behind the one before. -/
  | atom (before start stop : Nat)
  /-- An atom with its quantifier. -/
  | quantified

/-- A graph as far as it has been wired. -/
structure Wiring where
  cursor : Cursor
  nodes : Array Node := #[]
  root : Junction := ⟨0, 0, 0, 0⟩
  /-- The groups that are open, innermost first. -/
  junctions : List Junction := []
  /-- What comes next is connected from here. -/
  tail : Nat := 0
  latest : Latest := .nothing
  groups : Nat := 0

/-! ## Ranges -/

/-- A range, the ends of which have to be in order. -/
def CharRange.between (first last : Char) : Except Halt CharRange :=
  if first ≤ last then .ok ⟨first, last⟩ else .error (.slip (.reversedRange first last))

/-- Reads the list of a class like `Cursor.ranges`, and makes each range with a check. -/
def Cursor.wiredRanges (opening : Nat) (isFirst : Bool) (found : List CharRange) (c : Cursor) :
    Except Halt (List CharRange × Cursor) :=
  match _hc : c.classChar with
  | none => .error (.fault ⟨.unclosedClass, opening⟩)
  | some (x, escaped, d) =>
    if x = ']' ∧ !escaped ∧ !isFirst then .ok (found.reverse, d)
    else if x = '-' ∧ !escaped ∧ !isFirst ∧ d.rest.head? ≠ some ']' then
      .error (.fault ⟨.strayHyphen, c.offset⟩)
    else match hd : d.rest with
      | '-' :: ']' :: rest =>
        wiredRanges opening false (.single '-' :: .single x :: found) ⟨']' :: rest, d.offset + 1⟩
      | '-' :: rest =>
        match _he : classChar ⟨rest, d.offset + 1⟩ with
        | none => .error (.fault ⟨.unclosedClass, opening⟩)
        | some (y, _, e) =>
          if y < x then .error (.fault ⟨.rangeInverted x y, c.offset⟩)
          else
            match CharRange.between x y with
            | .error h => .error h
            | .ok range => wiredRanges opening false (range :: found) e
      | _ => wiredRanges opening false (.single x :: found) d
termination_by c.rest.length
decreasing_by
  · exact ((before_of_classChar _hc).trans (before_of_rest hd)).length_lt
  · exact ((before_of_classChar _hc).trans
      ((before_of_rest hd).trans (before_of_classChar _he))).length_lt
  · exact (before_of_classChar _hc).length_lt

namespace Wiring

/-! ## Nodes and edges -/

/-- Adds a node without successors, if there is room for it, and tells its index. -/
def push (limits : Limits) (kind : NodeKind) (w : Wiring) : Except Halt (Nat × Wiring) :=
  if w.nodes.size < limits.nodes then
    .ok (w.nodes.size, { w with nodes := w.nodes.push ⟨kind, []⟩ })
  else .error (.fault ⟨.nodeLimit limits.nodes, w.cursor.offset⟩)

/-- Adds an edge behind those that a node has. -/
def connect (source target : Nat) (w : Wiring) : Except Halt Wiring :=
  if source < w.nodes.size then
    .ok { w with nodes := w.nodes.modify source fun n => { n with next := n.next ++ [target] } }
  else .error (.slip (.noNode source))

/-- The innermost group, or the whole pattern. -/
def current (w : Wiring) : Junction := w.junctions.head?.getD w.root

/-! ## Constructs -/

/-- Adds an atom that takes one node. -/
def atom (limits : Limits) (kind : NodeKind) (w : Wiring) : Except Halt Wiring := do
  let (node, w) ← w.push limits kind
  let w ← w.connect w.tail node
  return { w with latest := .atom w.tail node node, tail := node }

/-- Adds an anchor, which cannot be quantified. -/
def anchor (limits : Limits) (a : Anchor) (w : Wiring) : Except Halt Wiring := do
  let (node, w) ← w.push limits (.anchor a)
  let w ← w.connect w.tail node
  return { w with latest := .nothing, tail := node }

/-- Opens the next group, whose parenthesis stands at `offset`. -/
def openGroup (limits : Limits) (offset : Nat) (w : Wiring) : Except Halt Wiring :=
  if w.junctions.length < limits.nesting then do
    let w := { w with groups := w.groups + 1 }
    let (opening, w) ← w.push limits (.groupOpen w.groups)
    let (close, w) ← w.push limits (.groupClose w.groups)
    let w ← w.connect w.tail opening
    return { w with
      junctions := ⟨opening, close, w.tail, offset⟩ :: w.junctions
      tail := opening
      latest := .nothing }
  else .error (.fault ⟨.nestingLimit limits.nesting, offset⟩)

/-- Closes the innermost group with the parenthesis at `offset`. -/
def closeGroup (offset : Nat) (w : Wiring) : Except Halt Wiring :=
  match w.junctions with
  | [] => .error (.fault ⟨.unopenedGroup, offset⟩)
  | j :: junctions => do
    let w ← { w with junctions }.connect w.tail j.close
    return { w with tail := j.close, latest := .atom j.before j.opening j.close }

/-- Ends the current branch and begins the next one. -/
def bar (w : Wiring) : Except Halt Wiring := do
  let j := w.current
  let w ← w.connect w.tail j.close
  return { w with tail := j.opening, latest := .nothing }

/-- Reads the bounds behind a brace at `offset`; other quantifiers have none. -/
def readBounds (offset : Nat) (op : Char) (w : Wiring) : Except Halt (Option Bounds × Wiring) :=
  if op = '{' then
    match w.cursor.bounds offset with
    | .error e => .error (.fault e)
    | .ok (bounds, d) => .ok (some bounds, { w with cursor := d })
  else .ok (none, w)

/-- Adds the edges of a quantifier between an atom and its exit. -/
def loop (limits : Limits) (op : Char) (bounds? : Option Bounds) (before start stop exit : Nat)
    (w : Wiring) : Except Halt Wiring :=
  match op, bounds? with
  | '?', _ => do
    let w ← w.connect stop exit
    w.connect before exit
  | '*', _ => do
    let w ← w.connect stop start
    let w ← w.connect stop exit
    w.connect before exit
  | '+', _ => do
    let w ← w.connect stop start
    w.connect stop exit
  | _, some bounds => do
    let (repetition, w) ← w.push limits (.repetition bounds exit)
    let w ← w.connect stop repetition
    let w ← w.connect repetition start
    if bounds.min = 0 then w.connect before exit else return w
  | _, none => .error (.slip (.noQuantifier op))

/-- Quantifies the latest atom by what begins with `op` at `offset`. -/
def quantify (limits : Limits) (offset : Nat) (op : Char) (w : Wiring) : Except Halt Wiring :=
  match w.latest with
  | .quantified => .error (.fault ⟨.stackedQuantifier, offset⟩)
  | .nothing => .error (.fault ⟨.missingOperand, offset⟩)
  | .atom before start stop => do
    let (bounds?, w) ← w.readBounds offset op
    let (exit, w) ← w.push limits .join
    let w ← w.loop limits op bounds? before start stop exit
    return { w with tail := exit, latest := .quantified }

/-- Adds a class whose bracket stands at `offset`. -/
def bracket (limits : Limits) (offset : Nat) (w : Wiring) : Except Halt Wiring :=
  match Cursor.wiredRanges offset true [] w.cursor.caret.2 with
  | .error h => .error h
  | .ok (found, d) =>
    { w with cursor := d }.atom limits (.test (.oneOf ⟨w.cursor.caret.1, found⟩))

/-- The test that a character stands for behind a backslash. -/
def escapedTest : Char → Except Halt CharTest
  | 'd' => (CharRange.between '0' '9').map fun digits => .oneOf ⟨false, [digits]⟩
  | 'D' => (CharRange.between '0' '9').map fun digits => .oneOf ⟨true, [digits]⟩
  | x => .ok (Reading.escapedTest x)

/-- Adds what an escape stands for, whose backslash stands at `offset`. -/
def escape (limits : Limits) (offset : Nat) (w : Wiring) : Except Halt Wiring :=
  match w.cursor.rest with
  | [] => .error (.fault ⟨.unexpectedEnd, w.cursor.offset⟩)
  | x :: rest =>
    if x.isDigit then
      match w.cursor.number with
      | .error e => .error (.fault e)
      | .ok (group, d) =>
        if group ≤ w.groups then { w with cursor := d }.atom limits (.backref group)
        else .error (.fault ⟨.undefinedBackref group, offset⟩)
    else
      match escapedTest x with
      | .error h => .error h
      | .ok t => { w with cursor := ⟨rest, w.cursor.offset + 1⟩ }.atom limits (.test t)

/-- Wires the construct that begins with `x`, the rest of which is read from `c` on. -/
def next (limits : Limits) (x : Char) (c : Cursor) (w : Wiring) : Except Halt Wiring :=
  let offset := w.cursor.offset
  let w := { w with cursor := c }
  match x with
  | '(' => w.openGroup limits offset
  | ')' => w.closeGroup offset
  | '|' => w.bar
  | '?' | '*' | '+' | '{' => w.quantify limits offset x
  | '^' => w.anchor limits .atStart
  | '$' => w.anchor limits .atEnd
  | '.' => w.atom limits (.test .any)
  | '[' => w.bracket limits offset
  | '\\' => w.escape limits offset
  | x => w.atom limits (.test (.literal x))

/-- Wires all constructs that follow, so many at most. -/
def toEnd (limits : Limits) : Nat → Wiring → Except Halt Wiring
  | count, w =>
    match w.cursor.rest, count with
    | [], _ => .ok w
    | _ :: _, 0 => .error (.slip .endless)
    | x :: rest, count + 1 =>
      match w.next limits x ⟨rest, w.cursor.offset + 1⟩ with
      | .error h => .error h
      | .ok w => w.toEnd limits count

/-- Connects the last branch to the end, once all groups are closed. -/
def finish (w : Wiring) : Except Halt Graph :=
  match w.junctions with
  | j :: _ => .error (.fault ⟨.unclosedGroup, j.offset⟩)
  | [] => do
    let w ← w.connect w.tail w.root.close
    return ⟨w.nodes, w.root.opening, w.root.close, w.groups⟩

end Wiring

/-- Wires the graph of a whole pattern between two nodes for its ends. -/
def wire (limits : Limits) (text : List Char) : Except Halt Graph := do
  let w : Wiring := { cursor := .ofList text }
  let (opening, w) ← w.push limits (.groupOpen 0)
  let (terminal, w) ← w.push limits .terminal
  let w ← { w with root := ⟨opening, terminal, opening, 0⟩, tail := opening }.toEnd limits
    text.length
  w.finish

end PatternGraph
