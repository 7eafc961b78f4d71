import PatternGraph.Graph.Basic
import PatternGraph.Search.State

/-!
# One step of a search

A search keeps its own stack. Frames for work say what is to be tried, frames for undoing lie
beneath the work that a change was made for and take it back when that work has failed. So the
next thing to try always finds the state in which it was put off.

* `Frame`, `Machine`: the stack, with the state;
* `Anchor.holds`: the offset is the end of the subject that is asked for;
* `follow`: the successors of a node go on the stack, `act`: what a node does, `enter`: coming to
  a node;
* `Turn`, `Machine.turn`: one frame is taken off the stack.
-/

namespace PatternGraph

/-- An entry of the stack. -/
inductive Frame where
  /-- Try the node at the offset. -/
  | enter (node offset : Nat)
  /-- Try these nodes at the offset, one after the other. -/
  | resume (next : List Nat) (offset : Nat)
  /-- Leave the repetition at `node` for `exit`. -/
  | leave (node exit offset : Nat)
  /-- Take back a change. -/
  | undo (u : Undo)
deriving DecidableEq

/-- A search in progress. -/
structure Machine where
  state : State
  stack : List Frame

/-- What one turn leads to. -/
inductive Turn where
  /-- The search goes on. -/
  | going (m : Machine)
  /-- The path has arrived. -/
  | accepted (st : State)
  /-- There is nothing left to try. -/
  | exhausted (st : State)

/-- Puts the successors of a node on the stack, to be tried in order. -/
def follow (next : List Nat) (offset : Nat) (stack : List Frame) : List Frame :=
  match next with
  | [] => stack
  | [n] => .enter n offset :: stack
  | n :: rest => .enter n offset :: .resume rest offset :: stack

/-- The offset is the end of the subject that the anchor asks for. -/
def Anchor.holds (a : Anchor) (subject : Array Char) (offset : Nat) : Bool :=
  match a with
  | .atStart => offset == 0
  | .atEnd => offset == subject.size

@[simp] theorem Anchor.holds_atStart {subject : Array Char} {offset : Nat} :
    Anchor.atStart.holds subject offset ↔ offset = 0 := beq_iff_eq

@[simp] theorem Anchor.holds_atEnd {subject : Array Char} {offset : Nat} :
    Anchor.atEnd.holds subject offset ↔ offset = subject.size := beq_iff_eq

/-- What a node does at an offset, once it has been marked. Where the path cannot go on, the
machine is left with what is on the stack. -/
@[inline] def act (subject : Array Char) (node : Nat) (n : Node) (offset : Nat) (m : Machine) : Turn :=
  match n.kind with
  | .test t =>
    if subject[offset]?.any t.accepts then
      .going { m with stack := follow n.next (offset + 1) m.stack }
    else .going m
  | .join => .going { m with stack := follow n.next offset m.stack }
  | .groupOpen group =>
    .going ⟨m.state.openGroup group offset,
      follow n.next offset (.undo (.dropSpan group) :: m.stack)⟩
  | .groupClose group =>
    match m.state.closeGroup? group offset with
    | none => .going m
    | some (stop, st) =>
      .going ⟨st, follow n.next offset (.undo (.restoreStop group stop) :: m.stack)⟩
  | .terminal =>
    match m.state.closeGroup? 0 offset with
    | none => .going m
    | some (stop, st) =>
      if offset = subject.size then .accepted st
      else .going ⟨st, .undo (.restoreStop 0 stop) :: m.stack⟩
  | .backref group =>
    match m.state.copyEnd? subject group offset with
    | none => .going m
    | some stop => .going { m with stack := follow n.next stop m.stack }
  | .repetition bounds exit =>
    let count := min countLimit (m.state.count node + 1)
    let stack := .undo (.restoreCount node (m.state.count node)) :: m.stack
    let leaving := if bounds.satisfied count then .leave node exit offset :: stack else stack
    .going ⟨m.state.setCount node count,
      if bounds.exceeded count then stack
      else if bounds.mayLoop count then follow n.next offset leaving
      else leaving⟩
  | .anchor a =>
    if a.holds subject offset then .going { m with stack := follow n.next offset m.stack }
    else .going m

/-- Comes to a node at an offset. It is tried there only if it is not being tried there already,
so that a path cannot go round without reading on. -/
@[inline] def enter (g : Graph) (subject : Array Char) (node offset : Nat) (m : Machine) : Turn :=
  match g.nodes[node]? with
  | none => .going m
  | some n =>
    if offset ≤ subject.size then
      match m.state.mark? node offset with
      | none => .going m
      | some st => act subject node n offset ⟨st, .undo (.unmark node offset) :: m.stack⟩
    else .going m

/-- Takes the top frame off the stack and does what it says. -/
@[inline] def Machine.turn (g : Graph) (subject : Array Char) (m : Machine) : Turn :=
  match m.stack with
  | [] => .exhausted m.state
  | .enter node offset :: stack => enter g subject node offset ⟨m.state, stack⟩
  | .resume next offset :: stack => .going ⟨m.state, follow next offset stack⟩
  | .leave node exit offset :: stack =>
    .going ⟨m.state.setCount node 0,
      .enter exit offset :: .undo (.restoreCount node (m.state.count node)) :: stack⟩
  | .undo u :: stack => .going ⟨m.state.undo u, stack⟩

end PatternGraph
