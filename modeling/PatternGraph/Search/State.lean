import PatternGraph.Span

/-!
# The state of a search

A search goes along one path at a time. What it has done on the way is kept in arrays that are
changed in place, and each change comes with an `Undo` that takes it back.

* `State`: marks, captures and counts, `State.initial` before the first step;
* `Undo`, `State.undo`;
* the changes: `State.mark?`, `State.openGroup`, `State.closeGroup?`, `State.setCount`, each with
  a lemma `undo_…` that says it can be taken back exactly;
* `State.group?`, `State.copyEnd?`: what has been captured.
-/

namespace PatternGraph

/-- What a search has done on its path.

* `marks`: for each node the offsets at which it is being tried, the latest first. Offsets never
  go down along a path, so the latest is the largest.
* `captures`: for each group its instances, the latest first. Group 0 is the whole match.
* `counts`: for each node the passes over the body of its repetition. -/
structure State where
  marks : Array (List Nat)
  captures : Array (List Span)
  counts : Array Nat

/-- How to take back one change of the state. -/
inductive Undo where
  /-- The node is no longer tried at the offset. -/
  | unmark (node offset : Nat)
  /-- The latest instance of the group is forgotten. -/
  | dropSpan (group : Nat)
  /-- The latest instance of the group ends where it did before. -/
  | restoreStop (group : Nat) (stop : Option Nat)
  /-- The passes of the node are what they were before. -/
  | restoreCount (node count : Nat)
deriving DecidableEq

/-- Counting stops here. -/
def countLimit : Nat := UInt32.size - 1

namespace State

/-- No node is tried, no group has been entered, no pass counted. -/
def initial (nodes groups : Nat) : State where
  marks := Array.replicate nodes []
  captures := Array.replicate (groups + 1) []
  counts := Array.replicate nodes 0

/-- Sets the end of the latest span. -/
def setStop (stop : Option Nat) : List Span → List Span
  | [] => []
  | s :: rest => s.withStop stop :: rest

/-- Takes back one change. -/
def undo (st : State) : Undo → State
  | .unmark node _ => { st with marks := st.marks.modify node List.tail }
  | .dropSpan group => { st with captures := st.captures.modify group List.tail }
  | .restoreStop group stop => { st with captures := st.captures.modify group (setStop stop) }
  | .restoreCount node count => { st with counts := st.counts.setIfInBounds node count }

/-! ## Changes -/

/-- A node with these marks may be tried at the offset: it has only been tried at smaller ones. -/
def isFresh (offset : Nat) (marks : List Nat) : Bool := marks.head?.all (· < offset)

/-- Marks a node as tried at an offset, unless it is on the path there already. -/
def mark? (st : State) (node offset : Nat) : Option State :=
  if (st.marks[node]?).any (isFresh offset) then
    some { st with marks := st.marks.modify node (offset :: ·) }
  else none

theorem mark?_eq_some {st st' : State} {node offset : Nat} : st.mark? node offset = some st' ↔
    (∃ marks, st.marks[node]? = some marks ∧ isFresh offset marks) ∧
      st' = { st with marks := st.marks.modify node (offset :: ·) } := by
  unfold mark?
  rw [← Option.any_eq_true]
  split
  · next hf => simp [hf, eq_comm]
  · next hf => simp [hf]

/-- Begins a new instance of a group. -/
def openGroup (st : State) (group offset : Nat) : State :=
  { st with captures := st.captures.modify group (.startingAt offset :: ·) }

/-- The latest instance of a group, finished or not. -/
def latest? (st : State) (group : Nat) : Option Span := st.captures[group]? >>= List.head?

/-- Ends the latest instance of a group, and tells where it ended before; there may be none. -/
def closeGroup? (st : State) (group offset : Nat) : Option (Option Nat × State) :=
  match st.latest? group with
  | none => none
  | some s =>
    some (s.stop, { st with captures := st.captures.modify group (setStop (some offset)) })

theorem closeGroup?_eq_some {st st' : State} {group offset : Nat} {stop : Option Nat} :
    st.closeGroup? group offset = some (stop, st') ↔
      ∃ s, st.latest? group = some s ∧ stop = s.stop ∧
        st' = { st with captures := st.captures.modify group (setStop (some offset)) } := by
  unfold closeGroup?
  split
  · next h => simp [h]
  · next s h => simp [h, eq_comm]

/-- The passes counted at a node. -/
def count (st : State) (node : Nat) : Nat := st.counts[node]?.getD 0

/-- Sets the passes counted at a node. -/
def setCount (st : State) (node count : Nat) : State :=
  { st with counts := st.counts.setIfInBounds node count }

/-! ## Captures -/

/-- The latest instance of a group, if it is finished. -/
def group? (st : State) (group : Nat) : Option Span := (st.latest? group).filter (·.isDefined)

/-- The `length` characters from `i` on are those from `j` on, as far as the subject goes. -/
def sameText (subject : Array Char) (i j : Nat) : Nat → Bool
  | 0 => true
  | length + 1 => subject[i]? == subject[j]? && sameText subject (i + 1) (j + 1) length

/-- Where a copy of the group's text ends that begins at `offset`, if there is one. A group that
has no finished instance on top has no text. -/
def copyEnd? (st : State) (subject : Array Char) (group offset : Nat) : Option Nat :=
  match (st.group? group).bind Span.range? with
  | none => none
  | some (start, stop) =>
    let length := stop - start
    if offset + length ≤ subject.size ∧ sameText subject start offset length then
      some (offset + length)
    else none

/-! ## Every change can be taken back -/

theorem modify_modify_of_cancel {α : Type} (xs : Array α) (i : Nat) (f g : α → α)
    (h : ∀ x, xs[i]? = some x → g (f x) = x) : (xs.modify i f).modify i g = xs := by
  apply Array.ext_getElem?
  intro j
  rw [Array.getElem?_modify, Array.getElem?_modify]
  split
  · next hij =>
    subst hij
    cases hx : xs[i]? with
    | none => rfl
    | some x => simp [h x hx]
  · rfl

theorem undo_mark? {st st' : State} {node offset : Nat} (h : st.mark? node offset = some st') :
    st'.undo (.unmark node offset) = st := by
  obtain ⟨-, rfl⟩ := mark?_eq_some.1 h
  simp only [undo]
  rw [modify_modify_of_cancel _ _ _ _ fun _ _ => rfl]

theorem undo_openGroup (st : State) (group offset : Nat) :
    (st.openGroup group offset).undo (.dropSpan group) = st := by
  simp only [undo, openGroup]
  rw [modify_modify_of_cancel _ _ _ _ fun _ _ => rfl]

theorem undo_closeGroup? {st st' : State} {group offset : Nat} {stop : Option Nat}
    (h : st.closeGroup? group offset = some (stop, st')) :
    st'.undo (.restoreStop group stop) = st := by
  obtain ⟨s, hs, rfl, rfl⟩ := closeGroup?_eq_some.1 h
  simp only [undo]
  rw [modify_modify_of_cancel]
  intro x hx
  cases x with
  | nil => rfl
  | cons t rest =>
    simp only [latest?, hx, Option.bind_eq_bind, Option.bind_some, List.head?_cons,
      Option.some.injEq] at hs
    subst hs
    simp [setStop]

theorem undo_setCount (st : State) (node n : Nat) :
    (st.setCount node n).undo (.restoreCount node (st.count node)) = st := by
  simp only [undo, setCount, count]
  congr 1
  apply Array.ext_getElem?
  intro j
  by_cases hj : node = j
  · subst hj
    by_cases hlt : node < st.counts.size
    · rw [Array.getElem?_setIfInBounds_self_of_lt (by simpa using hlt),
        Array.getElem?_eq_getElem hlt, Option.getD_some]
    · rw [Array.getElem?_eq_none (by simpa using hlt), Array.getElem?_eq_none (Nat.le_of_not_lt hlt)]
  · rw [Array.getElem?_setIfInBounds_ne hj, Array.getElem?_setIfInBounds_ne hj]

end State

end PatternGraph
