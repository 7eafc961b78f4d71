import Mathlib.Logic.Function.Basic
import PatternGraph.Proofs.Graph.Quiet
import PatternGraph.Proofs.Search.Descent

/-!
# Paths along a graph

What a path is does not depend on how it is searched for. A path goes from place to place; what it
has captured and counted follows from the places it has passed.

* `Place`: a node and an offset, `Memory`: captures without arrays, counts without a limit;
* `Move`: from a place to the next, as the kind of its node allows;
* `Path`: the places on the way to the terminal node at the end of the subject, `Reaches`: the
  places that can be come to at all;
* `moves`: the moves from a place in the order of its successors, **`mem_moves`**.
-/

namespace PatternGraph

/-- A node and an offset. -/
structure Place where
  node : Nat
  offset : Nat
deriving DecidableEq

/-- What a path has captured and counted: for each group its instances, the latest first, and for
each node the passes over the body of its repetition. -/
structure Memory where
  captures : Nat → List Span
  counts : Nat → Nat

namespace Memory

/-- Nothing captured and nothing counted. -/
def empty : Memory := ⟨fun _ => [], fun _ => 0⟩

/-- A new instance of the group begins. -/
def openGroup (mem : Memory) (group offset : Nat) : Memory :=
  { mem with
    captures := Function.update mem.captures group (.startingAt offset :: mem.captures group) }

/-- The latest instance of the group ends. -/
def closeGroup (mem : Memory) (group offset : Nat) : Memory :=
  { mem with
    captures :=
      Function.update mem.captures group (State.setStop (some offset) (mem.captures group)) }

/-- The passes counted at a node are set. -/
def setCount (mem : Memory) (node count : Nat) : Memory :=
  { mem with counts := Function.update mem.counts node count }

theorem counts_setCount_self (mem : Memory) (node count : Nat) :
    (mem.setCount node count).counts node = count := Function.update_self _ _ _

theorem counts_setCount_of_ne (mem : Memory) {node v : Nat} (h : v ≠ node) (count : Nat) :
    (mem.setCount node count).counts v = mem.counts v := Function.update_of_ne h _ _

/-- The latest instance of the group, finished or not; with neither end if there is none. -/
def latest (mem : Memory) (group : Nat) : Span := (mem.captures group).head?.getD {}

end Memory

/-- Where a copy of what the span covers ends that begins at `offset`. There is none if an end of
the span is not set, or if the subject does not go on with that text. -/
def Span.copyEnd? (s : Span) (subject : Array Char) (offset : Nat) : Option Nat :=
  match s.range? with
  | none => none
  | some (start, stop) =>
    if offset + (stop - start) ≤ subject.size ∧
        ∀ i < stop - start, subject[start + i]? = subject[offset + i]? then
      some (offset + (stop - start))
    else none

/-- A way on from a place, as the kind of its node allows, and what is captured and counted
then. -/
inductive Move (g : Graph) (subject : Array Char) : Place → Memory → Place → Memory → Prop
  | read {node offset next m t mem} : g.nodes[node]? = some ⟨.test t, next⟩ → m ∈ next →
    subject[offset]?.any t.accepts → Move g subject ⟨node, offset⟩ mem ⟨m, offset + 1⟩ mem
  | join {node offset next m mem} : g.nodes[node]? = some ⟨.join, next⟩ → m ∈ next →
    Move g subject ⟨node, offset⟩ mem ⟨m, offset⟩ mem
  | openGroup {node offset next m group mem} :
    g.nodes[node]? = some ⟨.groupOpen group, next⟩ → m ∈ next →
    Move g subject ⟨node, offset⟩ mem ⟨m, offset⟩ (mem.openGroup group offset)
  | closeGroup {node offset next m group mem} :
    g.nodes[node]? = some ⟨.groupClose group, next⟩ → m ∈ next →
    Move g subject ⟨node, offset⟩ mem ⟨m, offset⟩ (mem.closeGroup group offset)
  | copy {node offset next m group stop mem} :
    g.nodes[node]? = some ⟨.backref group, next⟩ → m ∈ next →
    (mem.latest group).copyEnd? subject offset = some stop →
    Move g subject ⟨node, offset⟩ mem ⟨m, stop⟩ mem
  | loop {node offset next m bounds exit mem} :
    g.nodes[node]? = some ⟨.repetition bounds exit, next⟩ → m ∈ next →
    ¬ bounds.exceeded (mem.counts node + 1) → bounds.mayLoop (mem.counts node + 1) →
    Move g subject ⟨node, offset⟩ mem ⟨m, offset⟩ (mem.setCount node (mem.counts node + 1))
  | leave {node offset next bounds exit mem} :
    g.nodes[node]? = some ⟨.repetition bounds exit, next⟩ →
    ¬ bounds.exceeded (mem.counts node + 1) → bounds.satisfied (mem.counts node + 1) →
    Move g subject ⟨node, offset⟩ mem ⟨exit, offset⟩ (mem.setCount node 0)
  | anchor {node offset next m a mem} : g.nodes[node]? = some ⟨.anchor a, next⟩ → m ∈ next →
    a.holds subject offset → Move g subject ⟨node, offset⟩ mem ⟨m, offset⟩ mem

/-- The places on a way from a place to the terminal node at the end of the subject. -/
inductive Path (g : Graph) (subject : Array Char) : Place → Memory → List Place → Prop
  | arrive (mem : Memory) :
    Path g subject ⟨g.terminal, subject.size⟩ mem [⟨g.terminal, subject.size⟩]
  | move {p q : Place} {mem mem' : Memory} {path : List Place} :
    Move g subject p mem q mem' → Path g subject q mem' path → Path g subject p mem (p :: path)

/-- What a way from the start may come to, and the memory it has then. -/
inductive Reaches (g : Graph) (subject : Array Char) : Place → Memory → Prop
  | start : Reaches g subject ⟨g.start, 0⟩ .empty
  | move {p q : Place} {mem mem' : Memory} :
    Reaches g subject p mem → Move g subject p mem q mem' → Reaches g subject q mem'

/-! ## What a move keeps -/

section

variable {g : Graph} {subject : Array Char} {p q : Place} {mem mem' : Memory}

theorem lt_size_of_any {i : Nat} {f : Char → Bool} (h : subject[i]?.any f) : i < subject.size := by
  by_contra hc
  rw [Array.getElem?_eq_none (Nat.le_of_not_lt hc)] at h
  cases h

theorem Span.offset_le_copyEnd? {s : Span} {offset stop : Nat}
    (h : s.copyEnd? subject offset = some stop) : offset ≤ stop ∧ stop ≤ subject.size := by
  unfold copyEnd? at h
  split at h
  · simp at h
  · split at h <;> cases h
    next hs => exact ⟨Nat.le_add_right .., hs.1⟩

namespace Memory

/-- `mem'` has an instance of every group that `mem` has one of. -/
def Keeps (mem mem' : Memory) : Prop := ∀ k, mem.captures k ≠ [] → mem'.captures k ≠ []

theorem keeps_update {group : Nat} {spans : List Span}
    (h : mem.captures group ≠ [] → spans ≠ []) :
    mem.Keeps { mem with captures := Function.update mem.captures group spans } := by
  intro k hk
  dsimp only
  by_cases hkg : k = group
  · subst hkg
    rw [Function.update_self]
    exact h hk
  · rwa [Function.update_of_ne hkg]

theorem keeps_openGroup (group offset : Nat) : mem.Keeps (mem.openGroup group offset) :=
  keeps_update fun _ => List.cons_ne_nil _ _

theorem keeps_closeGroup (group offset : Nat) : mem.Keeps (mem.closeGroup group offset) := by
  refine keeps_update fun h => ?_
  cases hc : mem.captures group with
  | nil => exact absurd hc h
  | cons s rest => simp [State.setStop]

end Memory

theorem Move.offset_le (h : Move g subject p mem q mem') : p.offset ≤ q.offset := by
  cases h with
  | read => exact Nat.le_succ _
  | copy _ _ hc => exact (Span.offset_le_copyEnd? hc).1
  | _ => exact Nat.le_refl _

theorem Move.offset_le_size (h : Move g subject p mem q mem') (hp : p.offset ≤ subject.size) :
    q.offset ≤ subject.size := by
  cases h with
  | read _ _ ht => exact lt_size_of_any ht
  | copy _ _ hc => exact (Span.offset_le_copyEnd? hc).2
  | _ => exact hp

theorem Move.keeps (h : Move g subject p mem q mem') : mem.Keeps mem' := by
  cases h with
  | openGroup => exact Memory.keeps_openGroup _ _
  | closeGroup => exact Memory.keeps_closeGroup _ _
  | _ => exact fun _ hk => hk

theorem Move.exists_onto (h : Move g subject p mem q mem') :
    ∃ nd, g.nodes[p.node]? = some nd ∧ q.node ∈ nd.onto := by
  cases h with
  | read hn hm => exact ⟨_, hn, hm⟩
  | join hn hm => exact ⟨_, hn, hm⟩
  | openGroup hn hm => exact ⟨_, hn, hm⟩
  | closeGroup hn hm => exact ⟨_, hn, hm⟩
  | copy hn hm => exact ⟨_, hn, hm⟩
  | loop hn hm => exact ⟨_, hn, List.mem_append_left _ hm⟩
  | leave hn => exact ⟨_, hn, List.mem_append_right _ (List.mem_singleton.2 rfl)⟩
  | anchor hn hm => exact ⟨_, hn, hm⟩

theorem Move.lt_or_quiet (h : Move g subject p mem q mem') :
    p.offset < q.offset ∨ p.offset = q.offset ∧ Quiet g.nodes p.node q.node := by
  have hq : ∀ {nd : Node} {v w : Nat}, g.nodes[v]? = some nd → (∀ t, nd.kind ≠ .test t) →
      w ∈ nd.onto → Quiet g.nodes v w := fun hn hk hw => ⟨_, hn, hk, hw⟩
  cases h with
  | read => exact .inl (Nat.lt_succ_self _)
  | join hn hm => exact .inr ⟨rfl, hq hn (by simp) hm⟩
  | openGroup hn hm => exact .inr ⟨rfl, hq hn (by simp) hm⟩
  | closeGroup hn hm => exact .inr ⟨rfl, hq hn (by simp) hm⟩
  | copy hn hm hc =>
    rcases Nat.lt_or_eq_of_le (Span.offset_le_copyEnd? hc).1 with h | h
    · exact .inl h
    · exact .inr ⟨h, hq hn (by simp) hm⟩
  | loop hn hm => exact .inr ⟨rfl, hq hn (by simp) (List.mem_append_left _ hm)⟩
  | leave hn => exact .inr ⟨rfl, hq hn (by simp) (by simp [Node.onto])⟩
  | anchor hn hm => exact .inr ⟨rfl, hq hn (by simp) hm⟩

theorem Move.counts_eq (h : Move g subject p mem q mem') :
    (∃ b exit next, g.nodes[p.node]? = some ⟨.repetition b exit, next⟩) ∨
      mem'.counts = mem.counts := by
  cases h with
  | loop hn => exact .inl ⟨_, _, _, hn⟩
  | leave hn => exact .inl ⟨_, _, _, hn⟩
  | _ => exact .inr rfl

theorem Path.mem_self {path : List Place} (h : Path g subject p mem path) : p ∈ path := by
  cases h with
  | arrive => exact List.mem_singleton.2 rfl
  | move => exact List.mem_cons_self

theorem Path.mem_terminal {path : List Place} (h : Path g subject p mem path) :
    ⟨g.terminal, subject.size⟩ ∈ path := by
  induction h with
  | arrive => exact List.mem_singleton.2 rfl
  | move _ _ ih => exact List.mem_cons_of_mem _ ih

theorem Path.offset_le_size {path : List Place} (h : Path g subject p mem path) :
    p.offset ≤ subject.size := by
  induction h with
  | arrive => exact Nat.le_refl _
  | move hm _ ih => exact Nat.le_trans hm.offset_le ih

theorem path_iff {path : List Place} : Path g subject p mem path ↔
    (p = ⟨g.terminal, subject.size⟩ ∧ path = [p]) ∨
      ∃ q mem' rest, Move g subject p mem q mem' ∧ Path g subject q mem' rest ∧ path = p :: rest := by
  constructor
  · intro h
    cases h with
    | arrive => exact .inl ⟨rfl, rfl⟩
    | move hm hp => exact .inr ⟨_, _, _, hm, hp, rfl⟩
  · rintro (⟨rfl, rfl⟩ | ⟨q, mem', rest, hm, hp, rfl⟩)
    · exact .arrive mem
    · exact .move hm hp

theorem Reaches.offset_le (h : Reaches g subject p mem) : p.offset ≤ subject.size := by
  induction h with
  | start => exact Nat.zero_le _
  | move _ hm ih => exact hm.offset_le_size ih

end

/-! ## The moves in order -/

/-- These nodes, all at one offset and with one memory. -/
def places (next : List Nat) (offset : Nat) (mem : Memory) : List (Place × Memory) :=
  next.map fun node => (⟨node, offset⟩, mem)

/-- The ways on from a place, in the order of the successors of its node; out of a repetition the
way into another pass comes first. -/
def moves (g : Graph) (subject : Array Char) (p : Place) (mem : Memory) : List (Place × Memory) :=
  match g.nodes[p.node]? with
  | none => []
  | some ⟨kind, next⟩ =>
    match kind with
    | .test t => if subject[p.offset]?.any t.accepts then places next (p.offset + 1) mem else []
    | .join => places next p.offset mem
    | .groupOpen group => places next p.offset (mem.openGroup group p.offset)
    | .groupClose group => places next p.offset (mem.closeGroup group p.offset)
    | .terminal => []
    | .backref group =>
      match (mem.latest group).copyEnd? subject p.offset with
      | none => []
      | some stop => places next stop mem
    | .repetition bounds exit =>
      let count := mem.counts p.node + 1
      if bounds.exceeded count then []
      else (if bounds.mayLoop count then places next p.offset (mem.setCount p.node count) else []) ++
        if bounds.satisfied count then [(⟨exit, p.offset⟩, mem.setCount p.node 0)] else []
    | .anchor a => if a.holds subject p.offset then places next p.offset mem else []

section

variable {g : Graph} {subject : Array Char} {p q : Place} {mem mem' : Memory} {node offset : Nat}
  {next : List Nat}

theorem mem_places :
    (q, mem') ∈ places next offset mem ↔ q.node ∈ next ∧ q.offset = offset ∧ mem' = mem := by
  obtain ⟨m, o⟩ := q
  simp only [places, List.mem_map, Prod.mk.injEq, Place.mk.injEq]
  constructor
  · rintro ⟨_, h, ⟨rfl, rfl⟩, rfl⟩; exact ⟨h, rfl, rfl⟩
  · rintro ⟨h, rfl, rfl⟩; exact ⟨m, h, ⟨rfl, rfl⟩, rfl⟩

theorem moves_test {t : CharTest} (h : g.nodes[node]? = some ⟨.test t, next⟩) :
    moves g subject ⟨node, offset⟩ mem =
      if subject[offset]?.any t.accepts then places next (offset + 1) mem else [] := by
  simp only [moves, h]

theorem moves_join (h : g.nodes[node]? = some ⟨.join, next⟩) :
    moves g subject ⟨node, offset⟩ mem = places next offset mem := by
  simp only [moves, h]

theorem moves_groupOpen {group : Nat} (h : g.nodes[node]? = some ⟨.groupOpen group, next⟩) :
    moves g subject ⟨node, offset⟩ mem = places next offset (mem.openGroup group offset) := by
  simp only [moves, h]

theorem moves_groupClose {group : Nat} (h : g.nodes[node]? = some ⟨.groupClose group, next⟩) :
    moves g subject ⟨node, offset⟩ mem = places next offset (mem.closeGroup group offset) := by
  simp only [moves, h]

theorem moves_backref {group : Nat} (h : g.nodes[node]? = some ⟨.backref group, next⟩) :
    moves g subject ⟨node, offset⟩ mem =
      match (mem.latest group).copyEnd? subject offset with
      | none => []
      | some stop => places next stop mem := by
  simp only [moves, h]

theorem moves_repetition {bounds : Bounds} {exit : Nat}
    (h : g.nodes[node]? = some ⟨.repetition bounds exit, next⟩) :
    moves g subject ⟨node, offset⟩ mem =
      if bounds.exceeded (mem.counts node + 1) then []
      else (if bounds.mayLoop (mem.counts node + 1) then
          places next offset (mem.setCount node (mem.counts node + 1)) else []) ++
        if bounds.satisfied (mem.counts node + 1) then [(⟨exit, offset⟩, mem.setCount node 0)]
        else [] := by
  simp only [moves, h]

theorem moves_anchor {a : Anchor} (h : g.nodes[node]? = some ⟨.anchor a, next⟩) :
    moves g subject ⟨node, offset⟩ mem =
      if a.holds subject offset then places next offset mem else [] := by
  simp only [moves, h]

theorem mem_moves : (q, mem') ∈ moves g subject p mem ↔ Move g subject p mem q mem' := by
  obtain ⟨node, offset⟩ := p
  obtain ⟨m, o⟩ := q
  constructor
  · intro h
    cases hn : g.nodes[node]? with
    | none => simp only [moves, hn] at h; cases h
    | some n =>
    obtain ⟨kind, next⟩ := n
    cases kind with
    | test t =>
      rw [moves_test hn] at h
      split at h
      · next ht => obtain ⟨hm, rfl, rfl⟩ := mem_places.1 h; exact .read hn hm ht
      · simp at h
    | join =>
      rw [moves_join hn] at h
      obtain ⟨hm, rfl, rfl⟩ := mem_places.1 h; exact .join hn hm
    | groupOpen =>
      rw [moves_groupOpen hn] at h
      obtain ⟨hm, rfl, rfl⟩ := mem_places.1 h; exact .openGroup hn hm
    | groupClose =>
      rw [moves_groupClose hn] at h
      obtain ⟨hm, rfl, rfl⟩ := mem_places.1 h; exact .closeGroup hn hm
    | terminal => simp only [moves, hn] at h; cases h
    | backref =>
      rw [moves_backref hn] at h
      split at h
      · simp at h
      · next hc => obtain ⟨hm, rfl, rfl⟩ := mem_places.1 h; exact .copy hn hm hc
    | repetition =>
      rw [moves_repetition hn] at h
      split at h
      · simp at h
      next he =>
      rcases List.mem_append.1 h with h | h
      · split at h
        · next hl => obtain ⟨hm, rfl, rfl⟩ := mem_places.1 h; exact .loop hn hm he hl
        · simp at h
      · split at h
        · next hs => cases List.mem_singleton.1 h; exact .leave hn he hs
        · simp at h
    | anchor =>
      rw [moves_anchor hn] at h
      split at h
      · next ha => obtain ⟨hm, rfl, rfl⟩ := mem_places.1 h; exact .anchor hn hm ha
      · simp at h
  · intro h
    cases h with
    | read hn hm ht => rw [moves_test hn, if_pos ht]; exact mem_places.2 ⟨hm, rfl, rfl⟩
    | join hn hm => rw [moves_join hn]; exact mem_places.2 ⟨hm, rfl, rfl⟩
    | openGroup hn hm => rw [moves_groupOpen hn]; exact mem_places.2 ⟨hm, rfl, rfl⟩
    | closeGroup hn hm => rw [moves_groupClose hn]; exact mem_places.2 ⟨hm, rfl, rfl⟩
    | copy hn hm hc => rw [moves_backref hn, hc]; exact mem_places.2 ⟨hm, rfl, rfl⟩
    | loop hn hm he hl =>
      rw [moves_repetition hn, if_neg he, if_pos hl]
      exact List.mem_append_left _ (mem_places.2 ⟨hm, rfl, rfl⟩)
    | leave hn he hs =>
      rw [moves_repetition hn, if_neg he, if_pos hs]
      exact List.mem_append_right _ (List.mem_singleton.2 rfl)
    | anchor hn hm ha => rw [moves_anchor hn, if_pos ha]; exact mem_places.2 ⟨hm, rfl, rfl⟩

end

end PatternGraph
