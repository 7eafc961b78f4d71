import PatternGraph.Proofs.Graph.Unfinished
import PatternGraph.Proofs.Graph.Wiring

/-!
# Wiring and laying out

A pattern is read and wired side by side. All that the pass knows but the nodes follows from what
has been read, and the nodes lie where the layout puts them, only that the last one of each scope
does not lead on yet. So the pass makes the graph of the pattern, or stops at its first fault, and
never by a slip.

* `Reading.wiring`: the state of the pass, `Reading.Holds`: what has been read lies in its nodes;
* `Follows`: wiring goes where reading goes, **`follows_next`**: over one construct,
  **`follows_toEnd`**: over all that follow;
* `Looped`: an atom that has been wired is put into a loop, **`follows_loop`**;
* **`wire_eq`**: wiring makes the graph of what has been read.
-/

namespace PatternGraph

/-! ## One node more, one edge more -/

namespace Wiring

variable {limits : Limits} {w : Wiring}

theorem push_bind {α : Type} (kind : NodeKind) (f : Nat × Wiring → Except Halt α)
    (h : w.nodes.size < limits.nodes) : (w.push limits kind >>= f) =
      f (w.nodes.size, { w with nodes := w.nodes.push ⟨kind, []⟩ }) := by
  rw [push, if_pos h]
  rfl

theorem push_bind_of_le {α : Type} (kind : NodeKind) (f : Nat × Wiring → Except Halt α)
    (h : limits.nodes ≤ w.nodes.size) :
    (w.push limits kind >>= f) = .error (.fault ⟨.nodeLimit limits.nodes, w.cursor.offset⟩) := by
  rw [push, if_neg (Nat.not_lt.2 h)]
  rfl

theorem connect_of_lt {source : Nat} (target : Nat) (h : source < w.nodes.size) :
    w.connect source target = .ok { w with nodes := addEdge w.nodes source target } := if_pos h

theorem connect_bind {α : Type} {source : Nat} (target : Nat) (f : Wiring → Except Halt α)
    (h : source < w.nodes.size) : (w.connect source target >>= f) =
      f { w with nodes := addEdge w.nodes source target } := by
  rw [connect_of_lt target h]
  rfl

end Wiring

theorem Reading.claim_of_le {limits : Limits} {r : Reading} {count : Nat} {c : Cursor}
    (h : r.nodes + count ≤ limits.nodes) :
    r.claim limits count c = .ok { r with cursor := c, nodes := r.nodes + count } := if_pos h

theorem Reading.claim_of_lt {limits : Limits} {r : Reading} {count : Nat} {c : Cursor}
    (h : limits.nodes < r.nodes + count) :
    r.claim limits count c = .error ⟨.nodeLimit limits.nodes, c.offset⟩ := if_neg (Nat.not_le.2 h)

/-! ## What the pass knows -/

/-- Where the innermost of the open groups begins, or the whole pattern. -/
def spot : List OpenGroup → Nat
  | [] => 0
  | g :: opened => g.outer.high (spot opened)

/-- The junctions of the open groups. -/
def junctions : List OpenGroup → List Junction
  | [] => []
  | g :: opened =>
    ⟨spot (g :: opened), spot (g :: opened) + 1, g.outer.tail (spot opened), g.offset⟩ ::
      junctions opened

/-- The node that opens the innermost scope. -/
def opens : List OpenGroup → NodeKind
  | [] => .groupOpen 0
  | g :: _ => .groupOpen g.number

/-- The node that closes the innermost scope. -/
def closes : List OpenGroup → NodeKind
  | [] => .terminal
  | g :: _ => .groupClose g.number

/-- What has just been read in a scope that opens at `o`. -/
def Scope.latest (s : Scope) (o : Nat) : Latest :=
  match s.items with
  | .atom a none :: items =>
    let n := Scope.high ⟨s.branches, items⟩ o
    .atom (Scope.tail ⟨s.branches, items⟩ o) n (a.last n)
  | .atom _ (some _) :: _ => .quantified
  | _ => .nothing

/-- The state of the pass behind what has been read, with the nodes that have been added. -/
def Reading.wiring (r : Reading) (ns : Array Node) : Wiring where
  cursor := r.cursor
  nodes := ns
  root := ⟨0, 1, 0, 0⟩
  junctions := junctions r.opened
  tail := r.scope.tail (spot r.opened)
  latest := r.scope.latest (spot r.opened)
  groups := r.groups

/-- The scopes around the innermost one have been wired, each up to the group that stands open in
it. -/
def Around (ns : Array Node) : List OpenGroup → Prop
  | [] => True
  | g :: opened =>
    g.outer.LiesAt ns (opens opened) (closes opened) [spot (g :: opened)] (spot opened) ∧
      Around ns opened

/-- What has been read lies in the nodes, and nothing else. -/
structure Reading.Holds (r : Reading) (ns : Array Node) : Prop where
  size : ns.size = r.scope.high (spot r.opened)
  count : r.nodes = ns.size
  scope : r.scope.LiesAt ns (opens r.opened) (closes r.opened) [] (spot r.opened)
  around : Around ns r.opened

/-- Wiring stops where reading stops, and goes on where it goes on. -/
def Follows : Except Fault Reading → Except Halt Wiring → Prop
  | .error f, .error h => h = .fault f
  | .ok r, .ok w => ∃ ns, w = r.wiring ns ∧ r.Holds ns
  | _, _ => False

theorem Follows.cases {x : Except Fault Reading} {y : Except Halt Wiring} (h : Follows x y) :
    (∃ f, x = .error f ∧ y = .error (.fault f)) ∨
      ∃ r ns, x = .ok r ∧ y = .ok (r.wiring ns) ∧ r.Holds ns :=
  match x, y, h with
  | .error f, .error _, rfl => .inl ⟨f, rfl, rfl⟩
  | .ok r, .ok _, ⟨ns, rfl, h⟩ => .inr ⟨r, ns, rfl, rfl, h⟩

section

variable {limits : Limits} {r : Reading} {ns ns' : Array Node} {opened : List OpenGroup}

theorem Around.congr (h : Around ns opened) (ha : Agree ns ns' 0 (spot opened)) :
    Around ns' opened := by
  induction opened with
  | nil => trivial
  | cons g opened ih =>
    have hlow := g.outer.low_le (spot opened)
    have hhigh := g.outer.low_le_high (spot opened)
    rw [spot] at ha
    exact ⟨h.1.congr (ha.mono (Nat.zero_le _) (Nat.le_refl _)),
      ih h.2 (ha.mono (Nat.le_refl 0) (by omega))⟩

/-! ## Items of one node -/

/-- The item takes one node, which is of this kind. -/
inductive Item.TakesOne : Item → NodeKind → Prop
  | anchor (a : Anchor) : TakesOne (.anchor a) (.anchor a)
  | test (t : CharTest) : TakesOne (.atom (.test t) none) (.test t)
  | backref (k : Nat) : TakesOne (.atom (.backref k) none) (.backref k)

namespace Item.TakesOne

variable {item : Item} {kind : NodeKind}

theorem after_eq (h : item.TakesOne kind) (n : Nat) : item.after n = n + 1 := by
  cases h <;> rfl

theorem last_eq (h : item.TakesOne kind) (n : Nat) : item.last n = n := by
  cases h <;> rfl

theorem ways_eq (h : item.TakesOne kind) (n : Nat) : item.ways n = [n] := by
  cases h <;> rfl

theorem liesAt {onward : List Nat} {n : Nat} (h : item.TakesOne kind)
    (hn : ns[n]? = some ⟨kind, onward⟩) : item.LiesAt ns onward n := by
  cases h <;> exact hn

end Item.TakesOne

theorem Reading.Holds.add {item : Item} {kind : NodeKind} (h : r.Holds ns)
    (hitem : item.TakesOne kind) (c : Cursor) :
    Holds { r with cursor := c, nodes := r.nodes + 1, scope := r.scope.add item }
      (addEdge (ns.push ⟨kind, []⟩) (r.scope.tail (spot r.opened)) ns.size) := by
  have htail := r.scope.tail_lt (spot r.opened)
  have hle := r.scope.le_tail (spot r.opened)
  have hsize := h.size
  refine ⟨?_, ?_, Scope.liesAt_add.2 ⟨?_, hitem.liesAt ?_⟩, h.around.congr ?_⟩
  · rw [size_addEdge, Array.size_push, hsize, Scope.high_add, hitem.after_eq]
  · rw [size_addEdge, Array.size_push, h.count]
  · rw [hitem.ways_eq]
    show r.scope.LiesAt _ _ _ ([] ++ [r.scope.high _]) _
    rw [← hsize]
    exact (h.scope.congr (agree_push _ (Nat.le_of_eq hsize.symm))).addEdge ns.size
  · show (addEdge _ _ _)[r.scope.high _]? = _
    rw [getElem?_addEdge_of_ne (Nat.ne_of_lt htail), ← hsize]
    exact Array.getElem?_push_size
  · show Agree _ _ 0 (spot r.opened)
    exact (agree_push _ (by omega)).trans (agree_addEdge (.inr hle))

theorem Scope.latest_add_atom (s : Scope) (a : Atom) (o : Nat) :
    (s.add (.atom a none)).latest o = .atom (s.tail o) (s.high o) (a.last (s.high o)) := rfl

/-- An item of one node is read and wired alike, whatever may be said of it afterwards. -/
theorem follows_add {item : Item} {kind : NodeKind} (h : r.Holds ns) (hitem : item.TakesOne kind)
    (c : Cursor) (latest : Nat → Nat → Latest)
    (hlatest : latest (r.scope.tail (spot r.opened)) ns.size =
      (r.scope.add item).latest (spot r.opened)) :
    Follows (r.add limits item c) (do
      let (node, w) ← (Reading.wiring { r with cursor := c } ns).push limits kind
      let w ← w.connect w.tail node
      return { w with latest := latest w.tail node, tail := node }) := by
  have hcount := h.count
  unfold Reading.add
  by_cases hlt : ns.size < limits.nodes
  · have htail := r.scope.tail_lt (spot r.opened)
    rw [Wiring.push_bind kind _ hlt, Reading.claim_of_le (by show r.nodes + 1 ≤ _; omega)]
    dsimp only
    have hsize := h.size
    rw [Wiring.connect_bind _ _ (by simp only [Reading.wiring, Array.size_push]; omega)]
    refine ⟨_, ?_, h.add hitem c⟩
    simp only [Reading.wiring, Scope.tail_add, hitem.last_eq, ← h.size, ← hlatest]
  · rw [Wiring.push_bind_of_le kind _ (Nat.le_of_not_lt hlt),
      Reading.claim_of_lt (by show _ < r.nodes + 1; omega)]
    rfl

theorem follows_addAtom {a : Atom} {kind : NodeKind} (h : r.Holds ns)
    (ha : Item.TakesOne (.atom a none) kind) (c : Cursor) :
    Follows (r.addAtom limits a c)
      ((Reading.wiring { r with cursor := c } ns).atom limits kind) := by
  refine follows_add h ha c (fun tail node => .atom tail node node) ?_
  rw [Scope.latest_add_atom, ← h.size]
  exact congrArg _ (ha.last_eq ns.size).symm

theorem follows_anchor (h : r.Holds ns) (a : Anchor) (c : Cursor) :
    Follows (r.add limits (.anchor a) c)
      ((Reading.wiring { r with cursor := c } ns).anchor limits a) :=
  follows_add h (.anchor a) c (fun _ _ => .nothing) rfl

/-! ## Groups and bars -/

theorem Scope.liesAt_empty {opens closes : NodeKind} {o : Nat} (ho : ns[o]? = some ⟨opens, []⟩)
    (hc : ns[o + 1]? = some ⟨closes, []⟩) : LiesAt ns opens closes [] {} o :=
  ⟨ho, hc, trivial, trivial⟩

theorem Scope.high_empty (o : Nat) : high {} o = o + 2 := by
  rw [high, low]
  rfl

theorem Reading.Holds.openGroup (h : r.Holds ns) (c : Cursor) :
    Holds ⟨c, r.nodes + 2, r.groups + 1, {}, ⟨r.groups + 1, r.cursor.offset, r.scope⟩ :: r.opened⟩
      (addEdge ((ns.push ⟨.groupOpen (r.groups + 1), []⟩).push ⟨.groupClose (r.groups + 1), []⟩)
        (r.scope.tail (spot r.opened)) ns.size) := by
  have htail := r.scope.tail_lt (spot r.opened)
  have hle := r.scope.le_tail (spot r.opened)
  have hsize := h.size
  have hpush : ∀ {nd nd' : Node}, Agree ns ((ns.push nd).push nd') 0 ns.size := fun {nd nd'} =>
    (agree_push nd (Nat.le_refl _)).trans (agree_push nd' (by rw [Array.size_push]; omega))
  refine ⟨?_, ?_, ?_, ?_, h.around.congr ?_⟩
  · rw [size_addEdge, Array.size_push, Array.size_push, Scope.high_empty, hsize]
    rfl
  · rw [size_addEdge, Array.size_push, Array.size_push, h.count]
  · show Scope.LiesAt _ _ _ [] {} (r.scope.high (spot r.opened))
    rw [← hsize] at htail ⊢
    refine Scope.liesAt_empty ?_ ?_
    · rw [getElem?_addEdge_of_ne (by omega),
        Array.getElem?_push_lt (by rw [Array.size_push]; omega), Array.getElem_push_eq]
      rfl
    · rw [getElem?_addEdge_of_ne (by omega)]
      exact Array.size_push (⟨.groupOpen (r.groups + 1), []⟩ : Node) ▸ Array.getElem?_push_size
  · show Scope.LiesAt _ _ _ ([] ++ [r.scope.high (spot r.opened)]) _ _
    rw [← hsize]
    exact (h.scope.congr (hpush.mono (by omega) (by omega))).addEdge ns.size
  · exact (hpush.mono (Nat.le_refl 0) (by omega)).trans (agree_addEdge (.inr hle))

theorem length_junctions (opened : List OpenGroup) : (junctions opened).length = opened.length := by
  induction opened with
  | nil => rfl
  | cons g opened ih => rw [junctions, List.length_cons, List.length_cons, ih]

theorem follows_openGroup (h : r.Holds ns) (c : Cursor) :
    Follows (r.openGroup limits c)
      ((Reading.wiring { r with cursor := c } ns).openGroup limits r.cursor.offset) := by
  have hcount := h.count
  unfold Reading.openGroup Wiring.openGroup Reading.wiring
  dsimp only
  rw [length_junctions]
  by_cases hnest : r.opened.length < limits.nesting
  · rw [if_pos hnest, if_pos hnest]
    by_cases hlt : ns.size < limits.nodes
    · rw [Wiring.push_bind _ _ hlt]
      dsimp only
      by_cases hlt' : ns.size + 1 < limits.nodes
      · have htail := r.scope.tail_lt (spot r.opened)
        have hsize := h.size
        rw [Wiring.push_bind _ _ (by rwa [Array.size_push]),
          Reading.claim_of_le (by show r.nodes + 2 ≤ _; omega)]
        dsimp only
        rw [Wiring.connect_bind _ _ (by simp only [Array.size_push]; omega)]
        refine ⟨_, ?_, h.openGroup c⟩
        simp only [Reading.wiring, junctions, spot, Array.size_push, h.size]
        rfl
      · rw [Wiring.push_bind_of_le _ _ (by rw [Array.size_push]; exact Nat.le_of_not_lt hlt'),
          Reading.claim_of_lt (by show _ < r.nodes + 2; omega)]
        rfl
    · rw [Wiring.push_bind_of_le _ _ (Nat.le_of_not_lt hlt),
        Reading.claim_of_lt (by show _ < r.nodes + 2; omega)]
      rfl
  · rw [if_neg hnest, if_neg hnest]
    rfl

theorem Scope.LiesAt.body {opens closes : NodeKind} {s : Scope} {o : Nat}
    (h : s.LiesAt ns opens closes [o + 1] o) : ns[o]? = some ⟨opens, heads (o + 1) s.body (o + 2)⟩ ∧
      ns[o + 1]? = some ⟨closes, []⟩ ∧ Branches.LieAt ns (o + 1) s.body (o + 2) := by
  have hopening := h.bar.opening
  rw [show s.bar.items.reverse = [] from rfl, ways, List.append_nil] at hopening
  exact ⟨hopening, h.bar.closing, h.bar.branches⟩

theorem Scope.after_body (s : Scope) (o : Nat) : Branches.after s.body (o + 2) = s.high o :=
  s.low_bar o

theorem le_spot (g : OpenGroup) (opened : List OpenGroup) : spot opened ≤ spot (g :: opened) :=
  Nat.le_trans (Nat.le_trans (Nat.le_add_right _ 2) (g.outer.low_le _)) (g.outer.low_le_high _)

theorem Reading.Holds.closeGroup {g : OpenGroup} (h : r.Holds ns) (ho : r.opened = g :: opened)
    (c : Cursor) : Holds { r with
        cursor := c, scope := g.outer.add (.atom (.group g.number r.scope.body) none), opened }
      (addEdge ns (r.scope.tail (spot r.opened)) (spot r.opened + 1)) := by
  obtain ⟨hsize, hcount, hscope, haround⟩ := h
  have hle := r.scope.le_tail (spot r.opened)
  rw [ho] at hsize hscope haround hle ⊢
  obtain ⟨hopening, hclosing, hbody⟩ := (hscope.addEdge (spot (g :: opened) + 1)).body
  refine ⟨?_, ?_, Scope.liesAt_add.2 ⟨haround.1.congr ?_, hopening, hclosing, hbody⟩,
    haround.2.congr ?_⟩
  · rw [size_addEdge, hsize, Scope.high_add, Item.after, Atom.after, Scope.after_body]
    rfl
  · rw [size_addEdge, hcount]
  · exact agree_addEdge (.inr hle)
  · exact agree_addEdge (.inr (Nat.le_trans (le_spot g opened) hle))

theorem follows_closeGroup (h : r.Holds ns) (c : Cursor) :
    Follows (r.closeGroup c)
      ((Reading.wiring { r with cursor := c } ns).closeGroup r.cursor.offset) := by
  unfold Reading.closeGroup Wiring.closeGroup Reading.wiring
  dsimp only
  cases ho : r.opened with
  | nil => rfl
  | cons g opened =>
    have htail := r.scope.tail_lt (spot r.opened)
    have hsize := h.size
    rw [ho] at htail hsize
    dsimp only [junctions]
    rw [Wiring.connect_bind _ _ (by dsimp only; omega)]
    have hclosed := h.closeGroup ho c
    rw [ho] at hclosed
    exact ⟨_, by simp only [Reading.wiring, Scope.tail_add, Scope.latest_add_atom]; rfl, hclosed⟩

theorem Reading.Holds.bar (h : r.Holds ns) (c : Cursor) :
    Holds { r with cursor := c, scope := r.scope.bar }
      (addEdge ns (r.scope.tail (spot r.opened)) (spot r.opened + 1)) := by
  refine ⟨?_, ?_, (h.scope.addEdge _).bar, h.around.congr ?_⟩
  · rw [size_addEdge, h.size, Scope.high_bar]
  · rw [size_addEdge, h.count]
  · exact agree_addEdge (.inr (r.scope.le_tail _))

theorem current_wiring (r : Reading) (ns : Array Node) :
    (r.wiring ns).current.opening = spot r.opened ∧
      (r.wiring ns).current.close = spot r.opened + 1 := by
  unfold Reading.wiring Wiring.current
  cases r.opened with
  | nil => exact ⟨rfl, rfl⟩
  | cons g opened => exact ⟨rfl, rfl⟩

theorem follows_bar (h : r.Holds ns) (c : Cursor) :
    Follows (r.bar c) (Reading.wiring { r with cursor := c } ns).bar := by
  obtain ⟨hopening, hclose⟩ := current_wiring { r with cursor := c } ns
  have htail := r.scope.tail_lt (spot r.opened)
  rw [← h.size] at htail
  rw [Wiring.bar, hclose, hopening, Wiring.connect_bind _ _ (by exact htail)]
  exact ⟨_, rfl, h.bar c⟩

/-! ## Quantifiers -/

/-- The character that a quantifier begins with. -/
def Quantifier.sign : Quantifier → Char
  | .optional => '?'
  | .star => '*'
  | .plus => '+'
  | .counted _ => '\x7b'

/-- The bounds that are written behind it. -/
def Quantifier.bounds? : Quantifier → Option Bounds
  | .counted bounds => some bounds
  | _ => none

/-- The innermost scope leads by `out` to an atom behind it, and the atom leads `onward`. -/
structure Ahead (ns : Array Node) (opened : List OpenGroup) (s : Scope) (a : Atom) (n : Nat)
    (out onward : List Nat) : Prop where
  start : s.high (spot opened) = n
  scope : s.LiesAt ns (opens opened) (closes opened) out (spot opened)
  atom : a.LiesAt ns onward n
  around : Around ns opened

namespace Ahead

variable {s : Scope} {a : Atom} {n : Nat} {out onward : List Nat}

theorem tail_lt (h : Ahead ns opened s a n out onward) : s.tail (spot opened) < n :=
  h.start ▸ s.tail_lt (spot opened)

theorem spot_le (h : Ahead ns opened s a n out onward) : spot opened ≤ n :=
  Nat.le_trans (s.le_tail _) (Nat.le_of_lt h.tail_lt)

theorem congr (h : Ahead ns opened s a n out onward) (ha : Agree ns ns' 0 (a.after n)) :
    Ahead ns' opened s a n out onward := by
  have hafter := a.le_after n
  exact ⟨h.start, h.scope.congr (ha.mono (Nat.zero_le _) (h.start ▸ hafter)),
    h.atom.congr (ha.mono (Nat.zero_le _) (Nat.le_refl _)),
    h.around.congr (ha.mono (Nat.le_refl 0) (Nat.le_trans h.spot_le hafter))⟩

theorem addEdge_last (h : Ahead ns opened s a n out onward) (target : Nat) :
    Ahead (addEdge ns (a.last n) target) opened s a n out (onward ++ [target]) := by
  have hlast := a.le_last n
  exact ⟨h.start, h.scope.congr (agree_addEdge (.inr (h.start ▸ hlast))), h.atom.addEdge,
    h.around.congr (agree_addEdge (.inr (Nat.le_trans h.spot_le hlast)))⟩

theorem addEdge_tail (h : Ahead ns opened s a n out onward) (target : Nat) :
    Ahead (addEdge ns (s.tail (spot opened)) target) opened s a n (out ++ [target]) onward :=
  ⟨h.start, h.scope.addEdge target, h.atom.congr (agree_addEdge (.inl h.tail_lt)),
    h.around.congr (agree_addEdge (.inr (s.le_tail _)))⟩

end Ahead

/-- The edges of a quantifier lie in the nodes, and nothing else behind its own nodes. -/
structure Looped (ns : Array Node) (opened : List OpenGroup) (s : Scope) (a : Atom) (n : Nat)
    (q : Quantifier) : Prop where
  size : ns.size = a.after n + q.nodes
  ahead : Ahead ns opened s a n (Item.ways (.atom a (some q)) n) (q.onward n (a.after n))
  quantifier : q.LiesAt ns n (a.after n) []

section

variable {w : Wiring} {s : Scope} {a : Atom} {n : Nat}

theorem getElem?_addEdge_of_lt {i m target : Nat} (hi : i < n) (hm : n ≤ m) :
    (addEdge ns i target)[m]? = ns[m]? := getElem?_addEdge_of_ne (by omega)

theorem looped_counted {b : Bounds} (h : Ahead ns opened s a n [n] [])
    (hjoin : ns[a.after n]? = some ⟨.join, []⟩) (hsize : ns.size = a.after n + 1) :
    Looped (if b.min = 0 then addEdge (addEdge (addEdge
        (ns.push ⟨.repetition b (a.after n), []⟩) (a.last n) ns.size) ns.size n)
        (s.tail (spot opened)) (a.after n)
      else addEdge (addEdge (ns.push ⟨.repetition b (a.after n), []⟩) (a.last n) ns.size) ns.size n)
      opened s a n (.counted b) := by
  have hlast := a.last_lt_after n
  have hpush : Agree ns (ns.push ⟨.repetition b (a.after n), []⟩) 0 (a.after n + 1) :=
    agree_push _ (Nat.le_of_eq hsize.symm)
  have hpushed : (ns.push ⟨.repetition b (a.after n), []⟩)[a.after n + 1]? =
      some ⟨.repetition b (a.after n), []⟩ := hsize ▸ Array.getElem?_push_size
  rw [hsize]
  have hcount : (addEdge (addEdge (ns.push ⟨.repetition b (a.after n), []⟩) (a.last n)
      (a.after n + 1)) (a.after n + 1) n).size = a.after n + 2 := by
    rw [size_addEdge, size_addEdge, Array.size_push, hsize]
  have hahead := ((h.congr (hpush.mono (Nat.le_refl 0) (Nat.le_succ _))).addEdge_last
    (a.after n + 1)).congr (agree_addEdge (.inr (Nat.le_succ _)) : Agree _ (addEdge _ _ n) 0 _)
  have hcounted : Quantifier.LiesAt (addEdge (addEdge (ns.push ⟨.repetition b (a.after n), []⟩)
      (a.last n) (a.after n + 1)) (a.after n + 1) n) n (a.after n) [] (.counted b) := by
    refine ⟨?_, getElem?_addEdge_self
      ((getElem?_addEdge_of_lt hlast (Nat.le_succ _)).trans hpushed)⟩
    rw [getElem?_addEdge_of_ne (Nat.succ_ne_self _), getElem?_addEdge_of_lt hlast (Nat.le_refl _)]
    exact (hpush _ (Nat.zero_le _) (Nat.lt_succ_self _)).trans hjoin
  have htail : s.tail (spot opened) < a.after n := Nat.lt_of_lt_of_le h.tail_lt (a.le_after n)
  by_cases hmin : b.min = 0
  · have hways : Item.ways (.atom a (some (.counted b))) n = [n] ++ [a.after n] :=
      if_pos (beq_iff_eq.2 hmin)
    rw [if_pos hmin]
    exact ⟨size_addEdge.trans hcount, hways ▸ hahead.addEdge_tail _,
      (getElem?_addEdge_of_lt htail (Nat.le_refl _)).trans hcounted.1,
      (getElem?_addEdge_of_lt htail (Nat.le_succ _)).trans hcounted.2⟩
  · have hways : Item.ways (.atom a (some (.counted b))) n = [n] :=
      if_neg fun he => hmin (beq_iff_eq.1 he)
    rw [if_neg hmin]
    exact ⟨hcount, hways ▸ hahead, hcounted⟩

/-- **The edges of a quantifier are added** between an atom and the join behind it, if there is room
for its other node. -/
theorem exists_loop (q : Quantifier) (h : Ahead w.nodes opened s a n [n] [])
    (hjoin : w.nodes[a.after n]? = some ⟨.join, []⟩) (hsize : w.nodes.size = a.after n + 1)
    (hroom : a.after n + q.nodes ≤ limits.nodes) :
    ∃ ns', w.loop limits q.sign q.bounds? (s.tail (spot opened)) n (a.last n) (a.after n) =
      .ok { w with nodes := ns' } ∧ Looped ns' opened s a n q := by
  have hlast := a.last_lt_after n
  have htail : s.tail (spot opened) < a.after n := Nat.lt_of_lt_of_le h.tail_lt (a.le_after n)
  have hkeep : ∀ {ns : Array Node} {i t : Nat}, i < a.after n →
      (addEdge ns i t)[a.after n]? = ns[a.after n]? := fun hi =>
    getElem?_addEdge_of_lt hi (Nat.le_refl _)
  cases q with
  | optional =>
    refine ⟨_, ?_, ?_, (h.addEdge_last (a.after n)).addEdge_tail (a.after n), ?_⟩
    · show (w.connect _ _ >>= fun w => w.connect _ _) = _
      rw [Wiring.connect_bind _ _ (by omega),
        Wiring.connect_of_lt _ (by simp only [size_addEdge]; omega)]
    · rw [size_addEdge, size_addEdge, hsize]
      rfl
    · exact (hkeep htail).trans ((hkeep hlast).trans hjoin)
  | star =>
    refine ⟨_, ?_, ?_, ((h.addEdge_last n).addEdge_last (a.after n)).addEdge_tail (a.after n), ?_⟩
    · show (w.connect _ _ >>= fun w => w.connect _ _ >>= fun w => w.connect _ _) = _
      rw [Wiring.connect_bind _ _ (by omega),
        Wiring.connect_bind _ _ (by simp only [size_addEdge]; omega),
        Wiring.connect_of_lt _ (by simp only [size_addEdge]; omega)]
    · rw [size_addEdge, size_addEdge, size_addEdge, hsize]
      rfl
    · exact (hkeep htail).trans ((hkeep hlast).trans ((hkeep hlast).trans hjoin))
  | plus =>
    refine ⟨_, ?_, ?_, (h.addEdge_last n).addEdge_last (a.after n), ?_⟩
    · show (w.connect _ _ >>= fun w => w.connect _ _) = _
      rw [Wiring.connect_bind _ _ (by omega),
        Wiring.connect_of_lt _ (by simp only [size_addEdge]; omega)]
    · rw [size_addEdge, size_addEdge, hsize]
      rfl
    · exact (hkeep hlast).trans ((hkeep hlast).trans hjoin)
  | counted b =>
    refine ⟨_, ?_, looped_counted h hjoin hsize⟩
    show (w.push _ _ >>= fun x => x.2.connect _ x.1 >>= fun w => w.connect x.1 _ >>= fun w =>
      if b.min = 0 then w.connect _ _ else pure w) = _
    rw [Wiring.push_bind _ _ (hsize ▸ hroom)]
    dsimp only
    rw [Wiring.connect_bind _ _ (by simp only [Array.size_push]; omega),
      Wiring.connect_bind _ _ (by simp only [size_addEdge, Array.size_push]; omega),
      Wiring.connect_of_lt _ (by simp only [size_addEdge, Array.size_push]; omega)]
    split <;> rfl

theorem loop_of_full {before start stop exit : Nat} (q : Quantifier)
    (hroom : w.nodes.size ≤ limits.nodes) (hfull : limits.nodes + 1 < w.nodes.size + q.nodes) :
    w.loop limits q.sign q.bounds? before start stop exit =
      .error (.fault ⟨.nodeLimit limits.nodes, w.cursor.offset⟩) := by
  cases q with
  | optional | star | plus => exact absurd hfull (Nat.not_lt.2 (Nat.succ_le_succ hroom))
  | counted b =>
    show (w.push _ _ >>= _) = _
    rw [Wiring.push_bind_of_le _ _ (Nat.le_of_succ_le_succ (Nat.le_of_succ_le_succ hfull))]

end

/-- **The nodes of a quantifier are read and wired alike.** -/
theorem follows_loop {s : Scope} {a : Atom} {n : Nat} (h : r.Holds ns)
    (hr : r.scope = s.add (.atom a none)) (hn : s.high (spot r.opened) = n) (q : Quantifier)
    (d : Cursor) :
    Follows (Reading.claim limits q.nodes d { r with scope := s.add (.atom a (some q)) }) (do
      let (exit, w) ← (Reading.wiring { r with cursor := d } ns).push limits .join
      let w ← w.loop limits q.sign q.bounds? (s.tail (spot r.opened)) n (a.last n) exit
      return { w with tail := exit, latest := .quantified }) := by
  obtain ⟨hsize, hcount, hscope, haround⟩ := h
  rw [hr, Scope.high_add, Item.after, hn] at hsize
  rw [hr, Scope.liesAt_add, hn] at hscope
  have hnodes := q.nodes_pos
  by_cases hlt : ns.size < limits.nodes
  · rw [Wiring.push_bind _ _ hlt]
    show Follows _ (Wiring.loop _ _ _ _ _ _ ns.size
      (Reading.wiring { r with cursor := d } (ns.push ⟨.join, []⟩)) >>= _)
    by_cases hroom : a.after n + q.nodes ≤ limits.nodes
    · have hahead : Ahead (ns.push ⟨.join, []⟩) r.opened s a n [n] [] :=
        Ahead.congr ⟨hn, hscope.1, hscope.2, haround⟩ (agree_push _ (Nat.le_of_eq hsize.symm))
      obtain ⟨ns', hloop, hlooped⟩ := exists_loop
        (w := Reading.wiring { r with cursor := d } (ns.push ⟨.join, []⟩)) q hahead
        (hsize ▸ Array.getElem?_push_size) ((Array.size_push _).trans (congrArg _ hsize)) hroom
      have hhigh : (s.add (.atom a (some q))).high (spot r.opened) = a.after n + q.nodes :=
        (s.high_add _ _).trans (by rw [hn, Item.after])
      rw [hsize, hloop, Reading.claim_of_le (by show r.nodes + _ ≤ _; omega)]
      refine ⟨ns', ?_, hlooped.size.trans hhigh.symm, ?_, Scope.liesAt_add.2 ⟨?_, ?_⟩,
        hlooped.ahead.around⟩
      · simp only [Reading.wiring, Scope.tail_add, hn, hsize]
        rfl
      · show r.nodes + q.nodes = _
        rw [hcount, hsize, hlooped.size]
      · rw [hn]
        exact hlooped.ahead.scope
      · rw [hn]
        exact ⟨hlooped.ahead.atom, hlooped.quantifier⟩
    · rw [loop_of_full q (by show (ns.push _).size ≤ _; rw [Array.size_push]; omega)
          (by show _ < (ns.push _).size + _; rw [Array.size_push]; omega),
        Reading.claim_of_lt (by show _ < r.nodes + _; omega)]
      rfl
  · rw [Wiring.push_bind_of_le _ _ (Nat.le_of_not_lt hlt),
      Reading.claim_of_lt (by show _ < r.nodes + _; omega)]
    rfl

/-- What is read of a quantifier behind its first character is what is wired of it. -/
def Spells (offset : Nat) (op : Char) (quantifier : Cursor → Except Fault (Quantifier × Cursor)) :
    Prop :=
  ∀ w : Wiring, match quantifier w.cursor with
    | .error f => w.readBounds offset op = .error (.fault f)
    | .ok (q, d) => q.sign = op ∧ w.readBounds offset op = .ok (q.bounds?, { w with cursor := d })

theorem spells_counted (offset : Nat) : Spells offset '\x7b' (Cursor.counted offset) := by
  intro w
  unfold Cursor.counted Wiring.readBounds
  rw [if_pos rfl]
  cases w.cursor.bounds offset with
  | error f => rfl
  | ok x => exact ⟨rfl, rfl⟩

theorem spells_of_ne {offset : Nat} {op : Char} {q : Quantifier} (hop : op ≠ '\x7b')
    (hsign : q.sign = op) (hbounds : q.bounds? = none) :
    Spells offset op fun c => .ok (q, c) := fun w => ⟨hsign, by
  rw [Wiring.readBounds, if_neg hop, hbounds]⟩

theorem follows_quantify {op : Char} {quantifier : Cursor → Except Fault (Quantifier × Cursor)}
    (h : r.Holds ns) (hop : Spells r.cursor.offset op quantifier) (c : Cursor) :
    Follows (r.quantify limits quantifier c)
      ((Reading.wiring { r with cursor := c } ns).quantify limits r.cursor.offset op) := by
  have hq := hop (Reading.wiring { r with cursor := c } ns)
  obtain ⟨cursor, nodes, groups, ⟨branches, items⟩, opened⟩ := r
  unfold Reading.quantify Wiring.quantify
  match items with
  | [] | .anchor _ :: _ | .atom _ (some _) :: _ => rfl
  | .atom a none :: items =>
    dsimp only [Reading.wiring, Scope.latest] at hq ⊢
    cases hread : quantifier c with
    | error f =>
      rw [hread] at hq
      rw [hq]
      rfl
    | ok x =>
      obtain ⟨q, d⟩ := x
      rw [hread] at hq
      obtain ⟨hsign, hbounds⟩ := hq
      rw [hbounds, ← hsign]
      exact follows_loop (s := ⟨branches, items⟩) h rfl rfl q d

/-! ## Classes and escapes -/

/-- **A list is read and wired alike**, and no range is made with its ends in the wrong order. -/
theorem wiredRanges_eq (opening : Nat) (isFirst : Bool) (found : List CharRange) (c : Cursor) :
    Cursor.wiredRanges opening isFirst found c =
      (Cursor.ranges opening isFirst found c).mapError .fault := by
  have hok : ∀ x : List CharRange × Cursor, (Except.ok x).mapError Halt.fault = .ok x :=
    fun _ => rfl
  have herror : ∀ f : Fault, Except.mapError Halt.fault
    (.error f : Except Fault (List CharRange × Cursor)) = .error (.fault f) := fun _ => rfl
  fun_induction Cursor.ranges opening isFirst found c with
  | case6 _ _ _ x _ _ _ _ _ _ _ _ y _ _ _ hle ih =>
    have hbetween : CharRange.between x y = .ok ⟨x, y⟩ := if_pos hle
    have hlt : ¬ y < x := Char.not_lt.2 hle
    rw [Cursor.wiredRanges]
    grind
  | case7 _ _ _ x _ _ _ _ _ _ _ _ y _ _ _ hle =>
    have hlt : y < x := Char.not_le.1 hle
    rw [Cursor.wiredRanges]
    grind
  | _ =>
    rw [Cursor.wiredRanges]
    grind

theorem follows_bracket (h : r.Holds ns) (c : Cursor) :
    Follows (r.addBracket limits c)
      ((Reading.wiring { r with cursor := c } ns).bracket limits r.cursor.offset) := by
  unfold Reading.addBracket Cursor.bracket Wiring.bracket
  rw [wiredRanges_eq]
  dsimp only [Reading.wiring]
  cases Cursor.ranges r.cursor.offset true [] c.caret.2 with
  | error f => rfl
  | ok x => exact follows_addAtom h (.test (.oneOf ⟨c.caret.1, x.1⟩)) x.2

theorem escapedTest_eq (x : Char) : Wiring.escapedTest x = .ok (Reading.escapedTest x) := by
  unfold Wiring.escapedTest
  split <;> rfl

theorem follows_escape (h : r.Holds ns) (c : Cursor) :
    Follows (r.addEscape limits c)
      ((Reading.wiring { r with cursor := c } ns).escape limits r.cursor.offset) := by
  unfold Reading.addEscape Reading.addBackref Wiring.escape Reading.wiring
  dsimp only
  cases c.rest with
  | nil => rfl
  | cons x rest =>
    dsimp only
    by_cases hx : x.isDigit
    · rw [if_pos hx, if_pos hx]
      cases c.number with
      | error f => rfl
      | ok y =>
        dsimp only
        by_cases hk : y.1 ≤ r.groups
        · rw [if_pos hk, if_pos hk]
          exact follows_addAtom h (.backref y.1) y.2
        · rw [if_neg hk, if_neg hk]
          rfl
    · rw [if_neg hx, if_neg hx, escapedTest_eq]
      exact follows_addAtom h (.test (Reading.escapedTest x)) _

/-! ## The whole pattern -/

/-- **One construct is read and wired alike.** -/
theorem follows_next (h : r.Holds ns) (x : Char) (c : Cursor) :
    Follows (r.next limits x c) ((r.wiring ns).next limits x c) := by
  unfold Reading.next
  split
  · exact follows_openGroup h c
  · exact follows_closeGroup h c
  · exact follows_bar h c
  · exact follows_quantify h (spells_of_ne (by decide) rfl rfl) c
  · exact follows_quantify h (spells_of_ne (by decide) rfl rfl) c
  · exact follows_quantify h (spells_of_ne (by decide) rfl rfl) c
  · exact follows_quantify h (spells_counted _) c
  · exact follows_anchor h .atStart c
  · exact follows_anchor h .atEnd c
  · exact follows_addAtom h (.test .any) c
  · exact follows_bracket h c
  · exact follows_escape h c
  · unfold Wiring.next
    dsimp only
    split <;> first | contradiction | exact follows_addAtom h (.test (.literal x)) c

theorem Wiring.toEnd_of_nil {count : Nat} {w : Wiring} (hc : w.cursor.rest = []) :
    w.toEnd limits count = .ok w := by
  unfold Wiring.toEnd
  rw [hc]

theorem Wiring.toEnd_of_next {count : Nat} {w : Wiring} {x : Char} {rest : List Char}
    (hc : w.cursor.rest = x :: rest) : w.toEnd limits (count + 1) =
      (w.next limits x ⟨rest, w.cursor.offset + 1⟩).bind (toEnd limits count) := by
  unfold Wiring.toEnd
  rw [hc]
  dsimp only
  cases w.next limits x ⟨rest, w.cursor.offset + 1⟩ <;> rfl

/-- **All that is left is read and wired alike**, if there are turns enough for it. -/
theorem follows_toEnd {count : Nat} (h : r.Holds ns) (hcount : r.cursor.rest.length ≤ count) :
    Follows (r.toEnd limits) ((r.wiring ns).toEnd limits count) := by
  induction count generalizing r ns with
  | zero =>
    have hrest := List.eq_nil_of_length_eq_zero (Nat.le_zero.1 hcount)
    rw [Reading.toEnd_of_nil limits hrest, Wiring.toEnd_of_nil hrest]
    exact ⟨ns, rfl, h⟩
  | succ count ih =>
    cases hrest : r.cursor.rest with
    | nil =>
      rw [Reading.toEnd_of_nil limits hrest, Wiring.toEnd_of_nil hrest]
      exact ⟨ns, rfl, h⟩
    | cons x rest =>
      have hnext : Follows _
          ((r.wiring ns).next limits x ⟨rest, (r.wiring ns).cursor.offset + 1⟩) :=
        follows_next h x ⟨rest, r.cursor.offset + 1⟩
      rw [Reading.toEnd_of_next limits hrest, Wiring.toEnd_of_next hrest]
      rcases hnext.cases with ⟨f, hr, hw⟩ | ⟨s, ns', hr, hw, hs⟩
      · rw [hr, hw]
        rfl
      · have hlt : s.cursor.rest.length < r.cursor.rest.length :=
          ((Reading.reaches_of_next hr).elim (· ▸ Cursor.before_of_rest hrest)
            (Cursor.before_of_rest hrest).trans).length_lt
        rw [hr, hw]
        exact ih hs (by omega)

theorem eq_ofPattern {p : Pattern} (ho : ns[0]? = some ⟨.groupOpen 0, heads 1 p.branches 2⟩)
    (ht : ns[1]? = some ⟨.terminal, []⟩) (hb : Branches.LieAt ns 1 p.branches 2)
    (hsize : ns.size = Branches.after p.branches 2) : ns = (Graph.ofPattern p).nodes := by
  obtain ⟨ho', ht', hb'⟩ := liesAt_ofPattern p
  have hsize' : (Graph.ofPattern p).nodes.size = ns.size :=
    (size_layoutBranches 1 p.branches _).trans hsize.symm
  refine Array.ext_getElem? fun i => ?_
  match i with
  | 0 => exact ho.trans ho'.symm
  | 1 => exact ht.trans ht'.symm
  | i + 2 =>
    by_cases hi : i + 2 < ns.size
    · exact (agree_branches p.branches 2 hb' hb (i + 2) (Nat.le_add_left 2 i) (hsize ▸ hi))
    · rw [Array.getElem?_eq_none (Nat.le_of_not_lt hi),
        Array.getElem?_eq_none (hsize' ▸ Nat.le_of_not_lt hi)]

/-- **What has been wired is the graph of what has been read.** -/
theorem finish_wiring (h : r.Holds ns) :
    (r.wiring ns).finish = (r.finish.map Graph.ofPattern).mapError .fault := by
  unfold Wiring.finish Reading.finish Reading.wiring
  dsimp only
  cases ho : r.opened with
  | cons g opened => rfl
  | nil =>
    obtain ⟨hsize, -, hscope, -⟩ := h
    rw [ho] at hsize hscope
    have htail := r.scope.tail_lt 0
    obtain ⟨hopening, hterminal, hbody⟩ := (hscope.addEdge 1).body
    dsimp only [junctions]
    rw [Wiring.connect_bind _ _ (by dsimp only [spot] at hsize ⊢; omega)]
    have hnodes := eq_ofPattern (p := ⟨r.scope.body, r.groups⟩) hopening hterminal hbody
      (by rw [size_addEdge, hsize]; exact (r.scope.after_body 0).symm)
    dsimp only [spot] at hnodes ⊢
    rw [hnodes]
    rfl

end

theorem holds_ofList (text : List Char) :
    (Reading.ofList text).Holds #[⟨.groupOpen 0, []⟩, ⟨.terminal, []⟩] :=
  ⟨Scope.high_empty 0 |>.symm, rfl, Scope.liesAt_empty rfl rfl, trivial⟩

/-- **Wiring makes the graph of what is read**, and stops where reading stops. -/
theorem wire_eq (limits : Limits) (text : List Char) :
    wire limits text = ((Pattern.read limits text).map Graph.ofPattern).mapError .fault := by
  unfold wire Pattern.read
  by_cases htwo : limits.nodes < 2
  · rw [if_pos htwo]
    by_cases hone : 0 < limits.nodes
    · rw [Wiring.push_bind _ _ (by exact hone)]
      dsimp only
      rw [Wiring.push_bind_of_le _ _ (by exact Nat.le_of_lt_succ htwo)]
      rfl
    · rw [Wiring.push_bind_of_le _ _ (by exact Nat.le_of_not_lt hone)]
      rfl
  · rw [if_neg htwo, Wiring.push_bind _ _ (by show 0 < limits.nodes; omega)]
    dsimp only
    rw [Wiring.push_bind _ _ (by show 1 < limits.nodes; omega)]
    show (((Reading.ofList text).wiring #[⟨.groupOpen 0, []⟩, ⟨.terminal, []⟩]).toEnd limits
      text.length >>= fun w => w.finish) = _
    have htoEnd : Follows ((Reading.ofList text).toEnd limits) _ :=
      follows_toEnd (holds_ofList text) (Nat.le_refl text.length)
    rcases htoEnd.cases with ⟨f, hr, hw⟩ | ⟨r, ns, hr, hw, h⟩
    · rw [hr, hw]
      rfl
    · rw [hr, hw]
      exact finish_wiring h

end PatternGraph
