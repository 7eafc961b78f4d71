import PatternGraph.Pattern.Bracket

/-!
# Reading a pattern

One pass from left to right, under limits. What has been read so far is kept as the branches of
the innermost open group, with the groups around it on a stack; the nodes that the pattern will
take are counted along, so that a pattern that grows too large is refused where it does.

* `Limits`, with their usual values as defaults;
* `Scope`, `OpenGroup`, `Reading`: the state;
* `Reading.next`: one construct, `Reading.toEnd`: all of them;
* `Pattern.read`: a whole pattern.
-/

namespace PatternGraph

/-- How deep groups may be nested, and how many nodes a pattern may take. -/
structure Limits where
  nesting : Nat := 250
  nodes : Nat := 1 <<< 20
deriving DecidableEq

/-- The branches of a group, as far as they have been read, the latest first: those that a bar has
ended, and the items of the one behind it. -/
structure Scope where
  branches : Branches := []
  items : Branch := []

namespace Scope

/-- One more item in the current branch. -/
def add (s : Scope) (item : Item) : Scope := { s with items := item :: s.items }

/-- The current branch is ended and the next one begun. -/
def bar (s : Scope) : Scope := ⟨s.items.reverse :: s.branches, []⟩

/-- All branches in the order of the text. -/
def body (s : Scope) : Branches := s.bar.branches.reverse

end Scope

/-- A group whose closing parenthesis is still to come: its number, the offset of its opening
parenthesis, and the branches around it as read up to there. -/
structure OpenGroup where
  number : Nat
  offset : Nat
  outer : Scope

/-- What has been read: the place reached, the nodes and groups so far, the innermost scope and
the open groups, innermost first. -/
structure Reading where
  cursor : Cursor
  nodes : Nat
  groups : Nat := 0
  scope : Scope := {}
  opened : List OpenGroup := []

namespace Reading

/-- Moves on to `c`, where `count` more nodes have to fit in. -/
def claim (limits : Limits) (count : Nat) (c : Cursor) (r : Reading) : Except Fault Reading :=
  if r.nodes + count ≤ limits.nodes then .ok { r with cursor := c, nodes := r.nodes + count }
  else .error ⟨.nodeLimit limits.nodes, c.offset⟩

/-- Adds an item that takes one node and ends before `c`. -/
def add (limits : Limits) (item : Item) (c : Cursor) (r : Reading) : Except Fault Reading :=
  { r with scope := r.scope.add item }.claim limits 1 c

/-- Adds an atom that takes one node and ends before `c`. -/
def addAtom (limits : Limits) (a : Atom) (c : Cursor) (r : Reading) : Except Fault Reading :=
  r.add limits (.atom a none) c

/-- Opens the next group, its parenthesis having been read before `c`. -/
def openGroup (limits : Limits) (c : Cursor) (r : Reading) : Except Fault Reading :=
  if r.opened.length < limits.nesting then
    { r with
      groups := r.groups + 1
      scope := {}
      opened := ⟨r.groups + 1, r.cursor.offset, r.scope⟩ :: r.opened }.claim limits 2 c
  else .error ⟨.nestingLimit limits.nesting, r.cursor.offset⟩

/-- Closes the innermost group, its parenthesis having been read before `c`. -/
def closeGroup (c : Cursor) (r : Reading) : Except Fault Reading :=
  match r.opened with
  | [] => .error ⟨.unopenedGroup, r.cursor.offset⟩
  | g :: opened =>
    .ok { r with
      cursor := c
      scope := g.outer.add (.atom (.group g.number r.scope.body) none)
      opened }

/-- Ends the current branch with a bar, which has been read before `c`. -/
def bar (c : Cursor) (r : Reading) : Except Fault Reading :=
  .ok { r with cursor := c, scope := r.scope.bar }

/-- Puts a quantifier behind the latest item, which has to be an atom without one. Only then is
the rest of the quantifier read. -/
def quantify (limits : Limits) (quantifier : Cursor → Except Fault (Quantifier × Cursor))
    (c : Cursor) (r : Reading) : Except Fault Reading :=
  match r.scope.items with
  | .atom a none :: items =>
    match quantifier c with
    | .error e => .error e
    | .ok (q, d) =>
      { r with scope := { r.scope with items := .atom a (some q) :: items } }.claim limits
        q.nodes d
  | .atom _ (some _) :: _ => .error ⟨.stackedQuantifier, r.cursor.offset⟩
  | _ => .error ⟨.missingOperand, r.cursor.offset⟩

/-- Adds a class that is written in brackets, the opening one having been read before `c`. -/
def addBracket (limits : Limits) (c : Cursor) (r : Reading) : Except Fault Reading :=
  match c.bracket r.cursor.offset with
  | .error e => .error e
  | .ok (k, d) => r.addAtom limits (.test (.oneOf k)) d

/-- Adds a back reference to a group that has been opened by now. -/
def addBackref (limits : Limits) (c : Cursor) (r : Reading) : Except Fault Reading :=
  match c.number with
  | .error e => .error e
  | .ok (group, d) =>
    if group ≤ r.groups then r.addAtom limits (.backref group) d
    else .error ⟨.undefinedBackref group, r.cursor.offset⟩

/-- The test that a character stands for behind a backslash, if it is not a digit. -/
def escapedTest : Char → CharTest
  | 'd' => .oneOf (.digits false)
  | 'D' => .oneOf (.digits true)
  | 's' => .oneOf (.blanks false)
  | 'S' => .oneOf (.blanks true)
  | x => .literal x

/-- Adds what an escape stands for, its backslash having been read before `c`. -/
def addEscape (limits : Limits) (c : Cursor) (r : Reading) : Except Fault Reading :=
  match c.rest with
  | [] => .error ⟨.unexpectedEnd, c.offset⟩
  | x :: rest =>
    if x.isDigit then r.addBackref limits c
    else r.addAtom limits (.test (escapedTest x)) ⟨rest, c.offset + 1⟩

/-- Reads the construct that begins with `x`, from `c` on. -/
def next (limits : Limits) (x : Char) (c : Cursor) (r : Reading) : Except Fault Reading :=
  match x with
  | '(' => r.openGroup limits c
  | ')' => r.closeGroup c
  | '|' => r.bar c
  | '?' => r.quantify limits (fun c => .ok (.optional, c)) c
  | '*' => r.quantify limits (fun c => .ok (.star, c)) c
  | '+' => r.quantify limits (fun c => .ok (.plus, c)) c
  | '{' => r.quantify limits (Cursor.counted r.cursor.offset) c
  | '^' => r.add limits (.anchor .atStart) c
  | '$' => r.add limits (.anchor .atEnd) c
  | '.' => r.addAtom limits (.test .any) c
  | '[' => r.addBracket limits c
  | '\\' => r.addEscape limits c
  | x => r.addAtom limits (.test (.literal x)) c

/-! ## What has been read -/

section

variable {limits : Limits} {c : Cursor} {r s : Reading}

theorem claim_eq_ok {count : Nat} : r.claim limits count c = .ok s ↔
    r.nodes + count ≤ limits.nodes ∧ s = { r with cursor := c, nodes := r.nodes + count } := by
  unfold claim
  split
  · next h => simp [h, eq_comm]
  · next h => simp [h]

theorem add_eq_ok {item : Item} : r.add limits item c = .ok s ↔ r.nodes + 1 ≤ limits.nodes ∧
    s = { r with cursor := c, nodes := r.nodes + 1, scope := r.scope.add item } := claim_eq_ok

theorem openGroup_eq_ok : r.openGroup limits c = .ok s ↔
    r.opened.length < limits.nesting ∧ r.nodes + 2 ≤ limits.nodes ∧
      s = ⟨c, r.nodes + 2, r.groups + 1, {},
        ⟨r.groups + 1, r.cursor.offset, r.scope⟩ :: r.opened⟩ := by
  unfold openGroup
  split
  · next h => simp [h, claim_eq_ok]
  · next h => simp [h]

theorem closeGroup_eq_ok : r.closeGroup c = .ok s ↔ ∃ g opened, r.opened = g :: opened ∧
    s = { r with
      cursor := c
      scope := g.outer.add (.atom (.group g.number r.scope.body) none)
      opened } := by
  unfold closeGroup
  split
  · next h => simp [h]
  · next g opened h =>
    rw [h]
    constructor
    · rintro ⟨⟩
      exact ⟨g, opened, rfl, rfl⟩
    · rintro ⟨_, _, ⟨⟩, rfl⟩
      rfl

theorem quantify_eq_ok {quantifier : Cursor → Except Fault (Quantifier × Cursor)} :
    r.quantify limits quantifier c = .ok s ↔ ∃ a items q d,
      r.scope.items = .atom a none :: items ∧ quantifier c = .ok (q, d) ∧
      r.nodes + q.nodes ≤ limits.nodes ∧
      s = { r with
        cursor := d
        nodes := r.nodes + q.nodes
        scope := ⟨r.scope.branches, .atom a (some q) :: items⟩ } := by
  constructor
  · intro h
    unfold quantify at h
    split at h
    · next a items hi =>
      split at h
      · simp at h
      · next q d hq =>
        obtain ⟨hle, rfl⟩ := claim_eq_ok.1 h
        exact ⟨a, items, q, d, hi, hq, hle, rfl⟩
    · simp at h
    · simp at h
  · rintro ⟨a, items, q, d, hi, hq, hle, rfl⟩
    unfold quantify
    rw [hi]
    simp only [hq]
    exact claim_eq_ok.2 ⟨hle, rfl⟩

theorem addBracket_eq_ok : r.addBracket limits c = .ok s ↔ ∃ k d,
    c.bracket r.cursor.offset = .ok (k, d) ∧ r.addAtom limits (.test (.oneOf k)) d = .ok s := by
  unfold addBracket
  split
  · next h => simp [h]
  · next k d h =>
    rw [h]
    constructor
    · intro hs
      exact ⟨k, d, rfl, hs⟩
    · rintro ⟨k, d, ⟨⟩, hs⟩
      exact hs

theorem addBackref_eq_ok : r.addBackref limits c = .ok s ↔ ∃ k d, c.number = .ok (k, d) ∧
    k ≤ r.groups ∧ r.addAtom limits (.backref k) d = .ok s := by
  unfold addBackref
  split
  · next h => simp [h]
  · next k d h =>
    rw [h]
    split
    · next hk =>
      constructor
      · intro hs
        exact ⟨k, d, rfl, hk, hs⟩
      · rintro ⟨_, _, ⟨⟩, -, hs⟩
        exact hs
    · next hk =>
      constructor
      · intro hs
        simp at hs
      · rintro ⟨_, _, ⟨⟩, hle, -⟩
        exact absurd hle hk

theorem addEscape_eq_ok : r.addEscape limits c = .ok s ↔ ∃ x rest, c.rest = x :: rest ∧
    ((x.isDigit ∧ ∃ k d, c.number = .ok (k, d) ∧ k ≤ r.groups ∧
        r.addAtom limits (.backref k) d = .ok s) ∨
      ¬ x.isDigit ∧ r.addAtom limits (.test (escapedTest x)) ⟨rest, c.offset + 1⟩ = .ok s) := by
  unfold addEscape
  split
  · next hc => simp [hc]
  · next x rest hc =>
    rw [hc]
    split
    · next hx =>
      rw [addBackref_eq_ok]
      constructor
      · intro hs
        exact ⟨x, rest, rfl, .inl ⟨hx, hs⟩⟩
      · rintro ⟨_, _, ⟨⟩, ⟨-, hs⟩ | ⟨hn, -⟩⟩
        · exact hs
        · exact absurd hx hn
    · next hx =>
      constructor
      · intro hs
        exact ⟨x, rest, rfl, .inr ⟨hx, hs⟩⟩
      · rintro ⟨_, _, ⟨⟩, ⟨hd, -⟩ | ⟨-, hs⟩⟩
        · exact absurd hd hx
        · exact hs

end

/-! ## Reading goes forward -/

section

variable {limits : Limits} {c : Cursor} {r s : Reading}

theorem reaches_of_quantify {quantifier : Cursor → Except Fault (Quantifier × Cursor)}
    (hq : ∀ {q d}, quantifier c = .ok (q, d) → d = c ∨ c.Before d)
    (h : r.quantify limits quantifier c = .ok s) : s.cursor = c ∨ c.Before s.cursor := by
  obtain ⟨a, items, q, d, -, hd, -, rfl⟩ := quantify_eq_ok.1 h
  exact hq hd

theorem cursor_of_addAtom {a : Atom} (h : r.addAtom limits a c = .ok s) : s.cursor = c := by
  obtain ⟨-, rfl⟩ := add_eq_ok.1 h
  rfl

theorem reaches_of_addEscape (h : r.addEscape limits c = .ok s) : c.Before s.cursor := by
  obtain ⟨x, rest, hc, ⟨-, k, d, hd, -, hs⟩ | ⟨-, hs⟩⟩ := addEscape_eq_ok.1 h
  · rw [cursor_of_addAtom hs]
    exact Cursor.before_of_number hd
  · rw [cursor_of_addAtom hs]
    exact Cursor.before_of_rest hc

/-- A construct is read to its end or further, and never backward. -/
theorem reaches_of_next {x : Char} (h : r.next limits x c = .ok s) :
    s.cursor = c ∨ c.Before s.cursor := by
  unfold next at h
  split at h
  · obtain ⟨-, -, rfl⟩ := openGroup_eq_ok.1 h
    exact .inl rfl
  · obtain ⟨g, opened, -, rfl⟩ := closeGroup_eq_ok.1 h
    exact .inl rfl
  · cases h
    exact .inl rfl
  · exact reaches_of_quantify (fun hd => by cases hd; exact .inl rfl) h
  · exact reaches_of_quantify (fun hd => by cases hd; exact .inl rfl) h
  · exact reaches_of_quantify (fun hd => by cases hd; exact .inl rfl) h
  · exact reaches_of_quantify (fun hd => .inr (Cursor.before_of_counted hd)) h
  · obtain ⟨-, rfl⟩ := add_eq_ok.1 h
    exact .inl rfl
  · obtain ⟨-, rfl⟩ := add_eq_ok.1 h
    exact .inl rfl
  · exact .inl (cursor_of_addAtom h)
  · obtain ⟨k, d, hd, hs⟩ := addBracket_eq_ok.1 h
    rw [cursor_of_addAtom hs]
    exact .inr (Cursor.before_of_bracket hd)
  · exact .inr (reaches_of_addEscape h)
  · exact .inl (cursor_of_addAtom h)

end

/-! ## The whole text -/

/-- Reads all constructs that follow. -/
def toEnd (limits : Limits) (r : Reading) : Except Fault Reading :=
  match _hc : r.cursor.rest with
  | [] => .ok r
  | x :: rest =>
    match _hn : r.next limits x ⟨rest, r.cursor.offset + 1⟩ with
    | .error e => .error e
    | .ok s => s.toEnd limits
termination_by r.cursor.rest.length
decreasing_by
  exact ((reaches_of_next _hn).elim (· ▸ Cursor.before_of_rest _hc)
    (Cursor.before_of_rest _hc).trans).length_lt

section

variable {limits : Limits} {r t : Reading}

theorem toEnd_of_nil (limits : Limits) (hc : r.cursor.rest = []) : r.toEnd limits = .ok r := by
  rw [toEnd]
  split
  · rfl
  · next hr => rw [hc] at hr; cases hr

theorem toEnd_of_next {x : Char} {rest : List Char} (limits : Limits)
    (hc : r.cursor.rest = x :: rest) :
    r.toEnd limits = (r.next limits x ⟨rest, r.cursor.offset + 1⟩).bind (toEnd limits) := by
  rw [toEnd]
  split
  · next hn => rw [hc] at hn; cases hn
  · next hr =>
    obtain ⟨rfl, rfl⟩ := List.cons.inj (hc.symm.trans hr)
    split
    · next hn => rw [hn]; rfl
    · next hn => rw [hn]; rfl

theorem exists_next_of_toEnd {x : Char} {rest : List Char} (h : r.toEnd limits = .ok t)
    (hc : r.cursor.rest = x :: rest) :
    ∃ s, r.next limits x ⟨rest, r.cursor.offset + 1⟩ = .ok s ∧ s.toEnd limits = .ok t := by
  rw [toEnd_of_next limits hc] at h
  cases hn : r.next limits x ⟨rest, r.cursor.offset + 1⟩ with
  | error e => rw [hn] at h; cases h
  | ok s =>
    rw [hn] at h
    exact ⟨s, rfl, h⟩

theorem eq_of_toEnd (h : r.toEnd limits = .ok t) (hc : r.cursor.rest = []) : t = r :=
  (Except.ok.inj ((toEnd_of_nil limits hc).symm.trans h)).symm

end

/-- The pattern that has been read, once all groups are closed. -/
def finish (r : Reading) : Except Fault Pattern :=
  match r.opened with
  | [] => .ok ⟨r.scope.body, r.groups⟩
  | g :: _ => .error ⟨.unclosedGroup, g.offset⟩

theorem finish_eq_ok {r : Reading} {p : Pattern} :
    r.finish = .ok p ↔ r.opened = [] ∧ p = ⟨r.scope.body, r.groups⟩ := by
  unfold finish
  split
  · next h => simp [h, eq_comm]
  · next h => simp [h]

end Reading

/-- Before anything has been read, two nodes are taken: where the pattern begins and ends. -/
def Reading.ofList (text : List Char) : Reading := { cursor := .ofList text, nodes := 2 }

/-- Reads a whole pattern, or finds its first fault. -/
def Pattern.read (limits : Limits) (text : List Char) : Except Fault Pattern :=
  if limits.nodes < 2 then .error ⟨.nodeLimit limits.nodes, 0⟩
  else
    match (Reading.ofList text).toEnd limits with
    | .error e => .error e
    | .ok r => r.finish

theorem Pattern.read_eq_ok {limits : Limits} {text : List Char} {p : Pattern} :
    Pattern.read limits text = .ok p ↔ 2 ≤ limits.nodes ∧ ∃ r,
      (Reading.ofList text).toEnd limits = .ok r ∧ r.opened = [] ∧
      p = ⟨r.scope.body, r.groups⟩ := by
  unfold read
  split
  · next hlt => simp [Nat.not_le_of_lt hlt]
  · next hle =>
    split
    · next h => simp [h]
    · next h => simp [h, Reading.finish_eq_ok, Nat.le_of_not_lt hle]

end PatternGraph
