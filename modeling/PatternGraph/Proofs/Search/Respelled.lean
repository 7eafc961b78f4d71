import PatternGraph.Proofs.Graph.Respelled
import PatternGraph.Proofs.Search.Recursion

/-!
# The search does not depend on how a quantifier is spelled

The graphs of a pattern in two spellings are searched side by side. Every call for a node of the
first graph has its counterpart for the twin of that node. The node that counts the passes of a loop
is come to in the second graph only; it is marked there, and it counts.

Its mark never stands in the way where the first graph would go on: if it is marked at an offset,
then the end of the body is marked there as well, or what comes behind the loop. This is what
`Loop.Passed` says.

* `Memory.Twin`: what the two searches have captured and counted, **`NodeKind.effect?_twin`**: a
  node does the same in both;
* **`Loop.Between.alongside`**: the node that counts leads where the first graph goes on;
* `Attempt.Twin`: what they have marked, `Attempt.Twin.move`, `Attempt.Twin.count`;
* `rel_terminal`, `rel_repetition`, `rel_effect`: they find the same at a node if they do behind it,
  **`found?_tryMatch_twin`**: so they do;
* **`captures?_eq_of_respelled`**: a pattern in two spellings.
-/

namespace PatternGraph

section

variable {g g' : Graph} {subject : Array Char} {all : List (Nat × Nat)} {mem mem' : Memory}

/-! ## What has been captured and counted -/

/-- The same has been captured, and the same counted at nodes that are twins. -/
structure Memory.Twin (all : List (Nat × Nat)) (g' : Graph) (mem mem' : Memory) : Prop where
  captures : mem.captures = mem'.captures
  counts : ∀ x ∈ all, mem.counts x.1 = mem'.counts x.2
  within : mem'.Within g'

theorem NodeKind.offset_of_effect? {kind : NodeKind} {i j : Nat}
    (h : kind.effect? subject i mem = some (j, mem')) :
    i ≤ j ∧ (i ≤ subject.size → j ≤ subject.size) := by
  cases kind with
  | test t =>
    simp only [effect?] at h
    split at h <;> cases h
    next ht => exact ⟨Nat.le_succ i, fun _ => lt_size_of_any ht⟩
  | groupClose | anchor =>
    simp only [effect?] at h
    split at h <;> cases h
    exact ⟨Nat.le_refl _, id⟩
  | backref k =>
    obtain ⟨stop, hc, he⟩ := Option.map_eq_some_iff.1 h
    cases he
    exact ⟨(Span.offset_le_copyEnd? hc).1, fun _ => (Span.offset_le_copyEnd? hc).2⟩
  | join | groupOpen => cases h; exact ⟨Nat.le_refl _, id⟩
  | terminal | repetition => cases h

theorem Span.lt_of_copyEnd? {s : Span} {i j k : Nat} (h : s.copyEnd? subject i = some j)
    (h' : s.copyEnd? subject j = some k) (hij : i < j) : j < k := by
  unfold copyEnd? at h h'
  cases hr : s.range? with
  | none => rw [hr] at h; cases h
  | some range =>
    rw [hr] at h h'
    simp only [Option.ite_none_right_eq_some, Option.some.injEq] at h h'
    omega

theorem NodeKind.lt_of_effect? {kind : NodeKind} {i j : Nat}
    (h : kind.effect? subject i mem = some (j, mem')) (hij : i < j) :
    ∀ x ∈ kind.effect? subject j mem', j < x.1 := by
  intro x hx
  cases kind with
  | test t =>
    simp only [effect?, Option.mem_def, Option.ite_none_right_eq_some] at hx
    obtain ⟨-, he⟩ := hx
    cases he
    exact Nat.lt_succ_self j
  | backref k =>
    obtain ⟨stop, hc, he⟩ := Option.map_eq_some_iff.1 h
    cases he
    obtain ⟨stop', hc', rfl⟩ := Option.map_eq_some_iff.1 hx
    exact Span.lt_of_copyEnd? hc hc' hij
  | groupClose | anchor =>
    simp only [effect?] at h
    split at h <;> cases h
    exact absurd hij (Nat.lt_irrefl _)
  | join | groupOpen => cases h; exact absurd hij (Nat.lt_irrefl _)
  | terminal | repetition => cases h

/-- **A node does the same in both searches.** -/
theorem NodeKind.effect?_twin (h : mem.Twin all g' mem') (kind : NodeKind) (subject : Array Char)
    (i : Nat) :
    Option.Rel (fun x x' => x.1 = x'.1 ∧ x.2.Twin all g' x'.2)
      (kind.effect? subject i mem) (kind.effect? subject i mem') := by
  obtain ⟨captures, counts⟩ := mem
  obtain ⟨captures', counts'⟩ := mem'
  obtain rfl : captures = captures' := h.captures
  -- whatever is captured now is captured on both sides
  have hsame : ∀ found, Memory.Twin all g' ⟨found, counts⟩ ⟨found, counts'⟩ := fun _ =>
    ⟨rfl, h.counts, h.within⟩
  cases kind with
  | test t =>
    simp only [effect?]
    split
    · exact .some ⟨rfl, h⟩
    · exact .none
  | anchor a =>
    simp only [effect?]
    split
    · exact .some ⟨rfl, h⟩
    · exact .none
  | groupClose k =>
    simp only [effect?]
    split
    · exact .none
    · exact .some ⟨rfl, hsame _⟩
  | backref k =>
    simp only [effect?, Memory.latest]
    cases Span.copyEnd? _ subject i with
    | none => exact .none
    | some stop => exact .some ⟨rfl, h⟩
  | join => exact .some ⟨rfl, h⟩
  | groupOpen k => exact .some ⟨rfl, hsame _⟩
  | terminal | repetition => exact .none

theorem Memory.Twin.setCount (h : mem.Twin all g' mem')
    (heq : ∀ x ∈ all, ∀ y ∈ all, x.1 = y.1 ↔ x.2 = y.2) {x : Nat × Nat} (hx : x ∈ all) {count : Nat}
    (hw : (mem'.setCount x.2 count).Within g') :
    (mem.setCount x.1 count).Twin all g' (mem'.setCount x.2 count) := by
  refine ⟨h.captures, fun y hy => ?_, hw⟩
  by_cases hxy : y.1 = x.1
  · rw [hxy, (heq y hy x hx).1 hxy, mem.counts_setCount_self, mem'.counts_setCount_self]
  · rw [mem.counts_setCount_of_ne hxy,
      mem'.counts_setCount_of_ne (mt (heq y hy x hx).2 hxy), h.counts y hy]

theorem Memory.Twin.setCount_fresh (h : mem.Twin all g' mem') {node count : Nat}
    (hfresh : ∀ v, (v, node) ∉ all) (hw : (mem'.setCount node count).Within g') :
    mem.Twin all g' (mem'.setCount node count) := by
  refine ⟨h.captures, fun y hy => ?_, hw⟩
  have hne : y.2 ≠ node := fun he => hfresh y.1 (he ▸ hy)
  rw [mem'.counts_setCount_of_ne hne, h.counts y hy]

/-! ## Places side by side -/

/-- Two ways on lead to twins, at the same offset and with the same captured and counted. -/
structure Alongside (all : List (Nat × Nat)) (g' : Graph) (j : Nat) (x x' : Place × Memory) :
    Prop where
  mem : (x.1.node, x'.1.node) ∈ all
  left : x.1.offset = j
  right : x'.1.offset = j
  memory : x.2.Twin all g' x'.2

theorem alongside_places {next next' : List Nat} (h : Ways all next next') (j : Nat)
    (hm : mem.Twin all g' mem') :
    List.Forall₂ (Alongside all g' j) (places next j mem) (places next' j mem') := by
  induction h with
  | nil => exact .nil
  | cons hi _ ih => exact .cons ⟨hi, rfl, rfl, hm⟩ ih

theorem alongside_repetition (heq : ∀ x ∈ all, ∀ y ∈ all, x.1 = y.1 ↔ x.2 = y.2) {x : Nat × Nat}
    (hx : x ∈ all) {b : Bounds} {exit exit' : Nat} {next next' : List Nat}
    (hn : g.nodes[x.1]? = some ⟨.repetition b exit, next⟩)
    (hn' : g'.nodes[x.2]? = some ⟨.repetition b exit', next'⟩) (hexit : (exit, exit') ∈ all)
    (hnext : Ways all next next') (hm : mem.Twin all g' mem') (i : Nat) :
    List.Forall₂ (Alongside all g' i) (moves g subject ⟨x.1, i⟩ mem)
      (moves g' subject ⟨x.2, i⟩ mem') := by
  have hset : ∀ {count : Nat}, count = 0 ∨ b.mayLoop count →
      (mem.setCount x.1 count).Twin all g' (mem'.setCount x.2 count) := fun hc =>
    hm.setCount heq hx (hm.within.setCount hn' hc)
  rw [moves_repetition hn, moves_repetition hn', hm.counts x hx]
  by_cases he : b.exceeded (mem'.counts x.2 + 1)
  · rw [if_pos he, if_pos he]
    exact .nil
  rw [if_neg he, if_neg he]
  refine List.rel_append ?_ ?_
  · by_cases hl : b.mayLoop (mem'.counts x.2 + 1)
    · rw [if_pos hl, if_pos hl]
      exact alongside_places hnext i (hset (.inr hl))
    · rw [if_neg hl, if_neg hl]
      exact .nil
  · by_cases hs : b.satisfied (mem'.counts x.2 + 1)
    · rw [if_pos hs, if_pos hs]
      exact .cons ⟨hexit, rfl, rfl, hset (.inl rfl)⟩ .nil
    · rw [if_neg hs, if_neg hs]
      exact .nil

/-- **The node that counts the passes leads where the first graph goes on from the body.** -/
theorem Loop.Between.alongside {l : Loop} (hl : l.Between all g.nodes g'.nodes)
    (hm : mem.Twin all g' mem') (j : Nat) :
    List.Forall₂ (Alongside all g' j) (places (l.quantifier.onward l.first.1 l.join.1) j mem)
      (moves g' subject ⟨l.counter, j⟩ mem') := by
  have hset : ∀ {count : Nat}, count = 0 ∨ l.quantifier.bounds.mayLoop count →
      mem.Twin all g' (mem'.setCount l.counter count) := fun hc =>
    hm.setCount_fresh hl.fresh (hm.within.setCount hl.counter hc)
  have hwithin := hm.within l.counter _ _ _ hl.counter
  rw [moves_repetition hl.counter]
  cases hq : l.quantifier with
  | counted b => exact absurd hq (hl.plain b)
  | star =>
    rw [hq] at hset
    exact .cons ⟨hl.first, rfl, rfl, hset (.inr rfl)⟩
      (.cons ⟨hl.join, rfl, rfl, hset (.inl rfl)⟩ .nil)
  | plus =>
    rw [hq] at hset
    have hsat : Bounds.satisfied ⟨1, none⟩ (mem'.counts l.counter + 1) = true := by
      simp [Bounds.satisfied]
    rw [Quantifier.bounds, hsat]
    exact .cons ⟨hl.first, rfl, rfl, hset (.inr rfl)⟩
      (.cons ⟨hl.join, rfl, rfl, hset (.inl rfl)⟩ .nil)
  | optional =>
    -- nothing is ever counted where there may be one pass only
    have hzero : mem'.counts l.counter = 0 := by
      rw [hq] at hwithin
      exact hwithin.elim id fun h => Nat.lt_one_iff.1 (h 1 rfl)
    rw [hzero]
    exact .cons ⟨hl.join, rfl, rfl, hset (.inl rfl)⟩ .nil

/-! ## Marks -/

/-- At the offset `o`, where the node that counts is marked, the first search would not go on: the
end of the body is marked there, or what comes behind it, or the place `p` is one of these. -/
inductive Loop.Passed (g : Graph) (subject : Array Char) (p : Place) (st : Attempt) (l : Loop)
    (o : Nat) : Prop
  | last : ⟨l.last.1, o⟩ ∈ st.marked → Passed g subject p st l o
  | join : l.last = l.first → ⟨l.join.1, o⟩ ∈ st.marked ∨ p = ⟨l.join.1, o⟩ →
    Passed g subject p st l o
  | again : p = ⟨l.last.1, o⟩ → (∀ nd, g.nodes[p.node]? = some nd →
    ∀ x ∈ nd.kind.effect? subject o st.memory, o < x.1) → Passed g subject p st l o

/-- What the two searches know when they are about to come to the place `p` and its twin. -/
structure Attempt.Twin (all : List (Nat × Nat)) (g g' : Graph) (subject : Array Char) (p : Place)
    (st st' : Attempt) : Prop where
  memory : st.memory.Twin all g' st'.memory
  marked : ∀ x ∈ all, ∀ o, ⟨x.1, o⟩ ∈ st.marked ↔ ⟨x.2, o⟩ ∈ st'.marked
  behind : ∀ q ∈ st.marked, q.offset ≤ p.offset
  passed : ∀ l : Loop, l.Between all g.nodes g'.nodes → ∀ o, ⟨l.counter, o⟩ ∈ st'.marked →
    l.Passed g subject p st o

section

variable {p q : Place} {st st' : Attempt} {l : Loop} {o j : Nat}

/-- Once the place itself has been marked, it does not matter where the search goes. -/
theorem Loop.Passed.move (h : l.Passed g subject p st o) :
    l.Passed g subject q ⟨(st.mark p).marked, mem⟩ o := by
  cases h with
  | last h => exact .last (Finset.mem_insert_of_mem h)
  | join hl h =>
    refine .join hl (.inl ?_)
    rcases h with h | rfl
    · exact Finset.mem_insert_of_mem h
    · exact Finset.mem_insert_self _ _
  | again hp _ => exact .last (hp ▸ Finset.mem_insert_self _ _)

section

variable (ht : Twins all g g')

include ht

theorem Attempt.Twin.move {x : Nat × Nat} (h : Attempt.Twin all g g' subject ⟨x.1, o⟩ st st')
    (hx : x ∈ all) (hq : o ≤ q.offset) (hm : mem.Twin all g' mem') :
    Attempt.Twin all g g' subject q ⟨(st.mark ⟨x.1, o⟩).marked, mem⟩
      ⟨(st'.mark ⟨x.2, o⟩).marked, mem'⟩ := by
  refine ⟨hm, fun y hy i => ?_, fun r hr => ?_, fun l hl i hi => ?_⟩
  · simp only [Attempt.mark, Finset.mem_insert, Place.mk.injEq, ht.eq_iff y hy x hx,
      h.marked y hy i]
  · rcases Finset.mem_insert.1 hr with rfl | hr
    · exact hq
    · exact Nat.le_trans (h.behind r hr) hq
  · rcases Finset.mem_insert.1 hi with he | hi
    · exact absurd (Place.mk.inj he).1 fun he => hl.fresh x.1 (he ▸ hx)
    · exact (h.passed l hl i hi).move

theorem Attempt.Twin.count (h : Attempt.Twin all g g' subject p st st')
    (hl : l.Between all g.nodes g'.nodes) (hp : l.Passed g subject p st j)
    (hm : st.memory.Twin all g' mem') :
    Attempt.Twin all g g' subject p st ⟨(st'.mark ⟨l.counter, j⟩).marked, mem'⟩ := by
  refine ⟨hm, fun y hy i => ?_, h.behind, fun k hk i hi => ?_⟩
  · have hne : y.2 ≠ l.counter := fun he => hl.fresh y.1 (he ▸ hy)
    simp only [Attempt.mark, Finset.mem_insert, Place.mk.injEq, hne, false_and, false_or,
      h.marked y hy i]
  · rcases Finset.mem_insert.1 hi with he | hi
    · obtain ⟨hc, rfl⟩ := Place.mk.inj he
      obtain ⟨hfirst, hlast, hjoin⟩ := hk.eq ht.eq_iff hl hc
      cases hp with
      | last hp => exact .last (hlast ▸ hp)
      | join hsingle hp => exact .join (hlast ▸ hfirst ▸ hsingle) (hjoin ▸ hp)
      | again hp hx => exact .again (hlast ▸ hp) hx
    · exact h.passed k hk i hi

end

/-! ## The end of a body -/

section

variable {kind : NodeKind} {next : List Nat}
  (hl : l.Between all g.nodes g'.nodes) (hn : g.nodes[l.last.1]? = some ⟨kind, next⟩)
  (he : kind.effect? subject o st.memory = some (j, mem))

include hl hn he

/-- A body that reads something at its last node is a single node. -/
theorem Loop.Between.single (hoj : o ≠ j) : l.last = l.first := by
  rcases hl.body with ⟨hlast, -⟩ | ⟨-, -, hclose⟩
  · exact hlast
  · rw [hn] at hclose
    cases hclose
    simp only [NodeKind.effect?] at he
    split at he <;> cases he
    exact absurd rfl hoj

theorem Loop.Between.marked_of_counter (h : Attempt.Twin all g g' subject ⟨l.last.1, o⟩ st st')
    (hp : ⟨l.last.1, o⟩ ∉ st.marked) (hc : ⟨l.counter, j⟩ ∈ st'.marked) {i : Nat}
    (hi : i ∈ l.quantifier.onward l.first.1 l.join.1) :
    ⟨i, j⟩ ∈ (st.mark ⟨l.last.1, o⟩).marked := by
  have hoj := (NodeKind.offset_of_effect? he).1
  have hback : ∀ {r : Place}, r ∈ st.marked → r.offset = j → o = j := fun hr hj =>
    Nat.le_antisymm hoj (hj ▸ h.behind _ hr)
  cases h.passed l hl j hc with
  | last hlast =>
    obtain rfl := hback hlast rfl
    exact absurd hlast hp
  | join hsingle hjoin =>
    rcases hjoin with hjoin | hjoin
    · obtain rfl := hback hjoin rfl
      rcases hl.plain.of_mem_onward hi with rfl | rfl
      · exact hsingle ▸ Finset.mem_insert_self _ _
      · exact Finset.mem_insert_of_mem hjoin
    · exact absurd (Place.mk.inj hjoin).1 (Nat.ne_of_lt hl.last_lt)
  | again hplace hreads =>
    obtain rfl := (Place.mk.inj hplace).2
    exact absurd (hreads _ hn _ he) (Nat.lt_irrefl _)

/-- Once the node that counts has been marked, the mark is of no consequence. -/
theorem Loop.Between.passed {i : Nat} (hi : i ∈ l.quantifier.onward l.first.1 l.join.1) :
    l.Passed g subject ⟨i, j⟩ ⟨(st.mark ⟨l.last.1, o⟩).marked, mem⟩ j := by
  by_cases hoj : o = j
  · subst hoj
    exact .last (Finset.mem_insert_self _ _)
  have hsingle := hl.single hn he hoj
  have hlt : o < j := Nat.lt_of_le_of_ne (NodeKind.offset_of_effect? he).1 hoj
  rcases hl.plain.of_mem_onward hi with rfl | rfl
  · refine .again (by rw [hsingle]) fun nd hnd => ?_
    rw [← hsingle, hn] at hnd
    cases hnd
    exact NodeKind.lt_of_effect? he hlt
  · exact .join hsingle (.inr rfl)

end

/-! ## Side by side -/

/-- The two searches have captured the same. -/
def SameCaptures (out out' : Attempt) : Prop := out.memory.captures = out'.memory.captures

/-- A call along the first graph and one along the second find the same, or both find nothing. -/
abbrev FindAlike (g g' : Graph) (subject : Array Char) (p p' : Place) (st st' : Attempt) : Prop :=
  Option.Rel SameCaptures (found? (tryMatch g subject p st)) (found? (tryMatch g' subject p' st'))

theorem rel_tryMoves {p' : Place} {ways ways' : List (Place × Memory)}
    (hf : List.Forall₂ (Alongside all g' j) ways ways')
    (h : ∀ y ∈ all, ∀ m m' : Memory, (⟨y.1, j⟩, m) ∈ ways → m.Twin all g' m' →
      FindAlike g g' subject ⟨y.1, j⟩ ⟨y.2, j⟩ ⟨(st.mark p).marked, m⟩ ⟨(st'.mark p').marked, m'⟩) :
    Option.Rel SameCaptures (tryMoves g subject st p ways) (tryMoves g' subject st' p' ways') := by
  refine rel_findSome? hf ?_
  rintro ⟨⟨v, i⟩, m⟩ hmem ⟨⟨v', i'⟩, m'⟩ ⟨hy, hi, hi', hm⟩
  simp only at hy hi hi' hm
  subst hi hi'
  exact h (v, v') hy m m' hmem hm

/-- Wherever the two searches go on from the place `p`, which is marked then, they find the same. -/
def AgreeBehind (all : List (Nat × Nat)) (g g' : Graph) (subject : Array Char) (st : Attempt)
    (p : Place) : Prop :=
  ∀ y ∈ all, ∀ (j : Nat) (m : Memory) (st' : Attempt),
    Attempt.Twin all g g' subject ⟨y.1, j⟩ ⟨(st.mark p).marked, m⟩ st' →
      FindAlike g g' subject ⟨y.1, j⟩ ⟨y.2, j⟩ ⟨(st.mark p).marked, m⟩ st'

section

variable (ht : Twins all g g')

include ht

theorem Loop.Between.rel_tryMoves {kind : NodeKind} {next : List Nat}
    (hl : l.Between all g.nodes g'.nodes) (hlast : l.last ∈ all)
    (hn : g.nodes[l.last.1]? = some ⟨kind, next⟩)
    (he : kind.effect? subject o st.memory = some (j, mem)) (hm : mem.Twin all g' mem')
    (h : Attempt.Twin all g g' subject ⟨l.last.1, o⟩ st st')
    (hp : o ≤ subject.size ∧ ⟨l.last.1, o⟩ ∉ st.marked)
    (hgo : AgreeBehind all g g' subject st ⟨l.last.1, o⟩) :
    Option.Rel SameCaptures
      (tryMoves g subject st ⟨l.last.1, o⟩
        (places (l.quantifier.onward l.first.1 l.join.1) j mem))
      (tryMoves g' subject st' ⟨l.last.2, o⟩ (places [l.counter] j mem')) := by
  have hoff := NodeKind.offset_of_effect? he
  let here : Attempt := ⟨(st'.mark ⟨l.last.2, o⟩).marked, mem'⟩
  have hcounter : tryMoves g' subject st' ⟨l.last.2, o⟩ (places [l.counter] j mem') =
      found? (tryMatch g' subject ⟨l.counter, j⟩ here) := List.findSome?_singleton
  rw [hcounter]
  by_cases hc : ⟨l.counter, j⟩ ∈ here.marked
  · -- the way is barred on both sides
    have hc' : ⟨l.counter, j⟩ ∈ st'.marked := by
      rcases Finset.mem_insert.1 hc with he | hc
      · exact absurd (Place.mk.inj he).1 fun he => hl.fresh l.last.1 (he ▸ hlast)
      · exact hc
    have hnone : tryMoves g subject st ⟨l.last.1, o⟩
        (places (l.quantifier.onward l.first.1 l.join.1) j mem) = none := by
      refine List.findSome?_eq_none_iff.2 ?_
      rintro ⟨⟨i, i'⟩, m⟩ hmem
      obtain ⟨hi, rfl, -⟩ := mem_places.1 hmem
      exact found?_tryMatch_of_marked (hl.marked_of_counter hn he h hp.2 hc' hi)
    rw [hnone, found?_tryMatch_of_marked hc]
    exact .none
  · rw [tryMatch_of_repetition hl.counter ⟨hoff.2 hp.1, hc⟩, found?_elim]
    refine PatternGraph.rel_tryMoves (hl.alongside hm j) fun y hy m m' hmem hm' => ?_
    obtain ⟨hi, -, rfl⟩ := mem_places.1 hmem
    exact hgo y hy j m _ ((h.move ht hlast hoff.1 hm).count ht hl (hl.passed hn he hi) hm')

section

variable {x : Nat × Nat} (hx : x ∈ all) (h : Attempt.Twin all g g' subject ⟨x.1, o⟩ st st')
  (hp : o ≤ subject.size ∧ ⟨x.1, o⟩ ∉ st.marked) (hp' : o ≤ subject.size ∧ ⟨x.2, o⟩ ∉ st'.marked)

include h hp hp'

omit ht in
theorem rel_terminal {next next' : List Nat} (hn : g.nodes[x.1]? = some ⟨.terminal, next⟩)
    (hn' : g'.nodes[x.2]? = some ⟨.terminal, next'⟩) :
    FindAlike g g' subject ⟨x.1, o⟩ ⟨x.2, o⟩ st st' := by
  rw [FindAlike, tryMatch_terminal hn hp, tryMatch_terminal hn' hp', h.memory.captures]
  split
  · refine .some ?_
    simp only [SameCaptures, Memory.closeGroup, h.memory.captures]
  · exact .none

include hx

theorem rel_repetition {b : Bounds} {exit exit' : Nat} {next next' : List Nat}
    (hn : g.nodes[x.1]? = some ⟨.repetition b exit, next⟩)
    (hn' : g'.nodes[x.2]? = some ⟨.repetition b exit', next'⟩) (hexit : (exit, exit') ∈ all)
    (hnext : Ways all next next') (hgo : AgreeBehind all g g' subject st ⟨x.1, o⟩) :
    FindAlike g g' subject ⟨x.1, o⟩ ⟨x.2, o⟩ st st' := by
  rw [FindAlike, tryMatch_of_repetition hn hp, tryMatch_of_repetition hn' hp', found?_elim,
    found?_elim]
  refine rel_tryMoves (alongside_repetition ht.eq_iff hx hn hn' hexit hnext h.memory o) ?_
  intro y hy m m' _ hm
  exact hgo y hy o m _ (h.move ht hx (Nat.le_refl o) hm)

theorem rel_effect {kind : NodeKind} {next next' : List Nat}
    (hn : g.nodes[x.1]? = some ⟨kind, next⟩) (hn' : g'.nodes[x.2]? = some ⟨kind, next'⟩)
    (hterm : kind ≠ .terminal) (hkind : ∀ b exit, kind ≠ .repetition b exit)
    (hnext : NextTwin all g.nodes g'.nodes x next next')
    (hgo : AgreeBehind all g g' subject st ⟨x.1, o⟩) :
    FindAlike g g' subject ⟨x.1, o⟩ ⟨x.2, o⟩ st st' := by
  rw [FindAlike, tryMatch_of_effect hn hterm hkind hp, tryMatch_of_effect hn' hterm hkind hp',
    found?_elim, found?_elim]
  have heffect := kind.effect?_twin h.memory subject o
  generalize he : kind.effect? subject o st.memory = found at heffect ⊢
  generalize kind.effect? subject o st'.memory = found' at heffect ⊢
  cases heffect with
  | none => exact .none
  | @some y y' hy =>
  obtain ⟨j, m⟩ := y
  obtain ⟨j', m'⟩ := y'
  obtain ⟨hj, hm⟩ := hy
  obtain rfl : j = j' := hj
  cases hnext with
  | same hways =>
    refine rel_tryMoves (alongside_places hways j hm) ?_
    intro y hy m m' _ hm
    exact hgo y hy j m _ (h.move ht hx (NodeKind.offset_of_effect? he).1 hm)
  | @loop l hl hlast =>
    subst hlast
    exact hl.rel_tryMoves ht hx hn he hm h hp hgo

end

/-- **Both searches find the same.** -/
theorem found?_tryMatch_twin {x : Nat × Nat} (hx : x ∈ all)
    (h : Attempt.Twin all g g' subject ⟨x.1, o⟩ st st') :
    FindAlike g g' subject ⟨x.1, o⟩ ⟨x.2, o⟩ st st' := by
  -- the induction is on the places of the first graph that may still be marked
  induction hr : (st.unmarked g subject.size).card using Nat.strongRecOn
    generalizing x o st st' with
  | _ r ih =>
  subst hr
  have hmarks := h.marked x hx o
  by_cases hp : o ≤ subject.size ∧ ⟨x.1, o⟩ ∉ st.marked
  swap
  · rw [FindAlike, tryMatch_of_not hp, tryMatch_of_not (by rwa [← hmarks])]
    exact .none
  have hp' : o ≤ subject.size ∧ ⟨x.2, o⟩ ∉ st'.marked := by rwa [← hmarks]
  have hgo : ∀ {nd : Node}, g.nodes[x.1]? = some nd → AgreeBehind all g g' subject st ⟨x.1, o⟩ :=
    fun hn y hy j m st' hy' => ih _ (Attempt.card_unmarked_mark_lt hn hp m) hy hy' rfl
  cases ht.node x hx with
  | repetition hn hn' hexit hnext => exact rel_repetition ht hx h hp hp' hn hn' hexit hnext (hgo hn)
  | @same kind next next' hn hn' hkind hnext =>
    by_cases hterm : kind = .terminal
    · subst hterm
      exact rel_terminal h hp hp' hn hn'
    · exact rel_effect ht hx h hp hp' hn hn' hterm hkind hnext (hgo hn)

end

end

/-! ## Two spellings -/

theorem descend_rel_of_twins (ht : Twins all g g') (hg : g.Fits) (hg' : g'.Fits)
    (hgroups : g'.groups = g.groups) (subject : Array Char) :
    Option.Rel (fun st st' : State => ∀ k ≤ g.groups, st.captures[k]? = st'.captures[k]?)
      (Visit.descend g subject ⟨g.start, 0, .initial g.size g.groups⟩)
      (Visit.descend g' subject ⟨g'.start, 0, .initial g'.size g'.groups⟩) := by
  have hstart : Attempt.Twin all g g' subject ⟨g.start, 0⟩ .initial .initial :=
    ⟨⟨rfl, fun _ _ => rfl, Memory.within_empty g'⟩,
      fun _ _ _ => iff_of_false (Finset.notMem_empty _) (Finset.notMem_empty _),
      fun _ hq => absurd hq (Finset.notMem_empty _),
      fun _ _ _ ho => absurd ho (Finset.notMem_empty _)⟩
  have htwin : Option.Rel SameCaptures (found? (tryMatch g subject ⟨g.start, 0⟩ .initial))
      (found? (tryMatch g' subject ⟨g'.start, 0⟩ .initial)) :=
    found?_tryMatch_twin ht ht.start hstart
  have hrel := descend_start_rel_tryMatch hg subject
  have hrel' := descend_start_rel_tryMatch hg' subject
  generalize found? (tryMatch g subject ⟨g.start, 0⟩ .initial) = found at htwin hrel
  generalize found? (tryMatch g' subject ⟨g'.start, 0⟩ .initial) = found' at htwin hrel'
  generalize Visit.descend g subject _ = reached at hrel ⊢
  generalize Visit.descend g' subject _ = reached' at hrel' ⊢
  cases htwin with
  | none => cases hrel; cases hrel'; exact .none
  | some hsame =>
    cases hrel with
    | some hm =>
    cases hrel' with
    | some hm' =>
    refine .some fun k hk => ?_
    rw [hm.captures k hk, hm'.captures k (hgroups ▸ hk), hsame]

end

/-- **It makes no difference how a quantifier is spelled.** A pattern in which some of the
quantifiers `?`, `*` and `+` have been written as `{0,1}`, `{0,}` and `{1,}` matches the same
subjects as before, and every group has the same span. -/
theorem captures?_eq_of_respelled {limits limits' : Limits} {pattern pattern' : String}
    {r r' : Regex} {p p' : Pattern} (hr : RegexBuilder.build ⟨pattern, limits⟩ = .ok r)
    (hp : Pattern.read limits pattern.toList = .ok p)
    (hr' : RegexBuilder.build ⟨pattern', limits'⟩ = .ok r')
    (hp' : Pattern.read limits' pattern'.toList = .ok p')
    (h : Branches.Respelled p.branches p'.branches) (subject : String) :
    r.isMatch subject = r'.isMatch subject ∧ r.captures? subject = r'.captures? subject := by
  obtain rfl := eq_of_build hr hp
  obtain rfl := eq_of_build hr' hp'
  have hgroups : p'.groups = p.groups :=
    groups_eq_of_respelled (numbers_of_read hp) (numbers_of_read hp') h
  obtain ⟨all, ht⟩ := twins_ofPattern h
  have hd := descend_rel_of_twins ht (Graph.fits_ofPattern (fits_of_read hp))
    (Graph.fits_ofPattern (fits_of_read hp')) hgroups subject.toList.toArray
  simp only [Regex.isMatch, Regex.captures?, Regex.matcher, Matcher.run, Matcher.ofGraph,
    search_eq_descend]
  generalize Visit.descend (Graph.ofPattern p) _ _ = found at hd ⊢
  generalize Visit.descend (Graph.ofPattern p') _ _ = found' at hd ⊢
  cases hd with
  | none => exact ⟨rfl, rfl⟩
  | @some st st' hcaptures =>
    refine ⟨rfl, congrArg (fun spans => some (Captures.ofSpans subject spans)) ?_⟩
    have hsize : (Graph.ofPattern p').groups = (Graph.ofPattern p).groups := hgroups
    simp only [Matcher.spans, hsize]
    refine List.map_congr_left fun k hk => ?_
    have hk : k ≤ p.groups := Nat.le_of_lt_succ (List.mem_range.1 hk)
    simp only [Matcher.group?, State.group?, State.latest?, hcaptures k hk]

/-- In `(a*|b)+\1?` every loop is respelled, and what the outer one repeats may be empty. -/
theorem captures?_eq_of_respelled_nested : ∃ r r',
    RegexBuilder.build ⟨"(a*|b)+\\1?", {}⟩ = .ok r ∧
      RegexBuilder.build ⟨"(a\x7b0,\x7d|b)\x7b1,\x7d\\1\x7b0,1\x7d", {}⟩ = .ok r' ∧
      (r.captures? "abb").map (·.span? 1) = some (some ⟨some 2, some 3⟩) ∧
      r.isMatch "abb" = r'.isMatch "abb" ∧ r.captures? "abb" = r'.captures? "abb" := by
  let p : Pattern :=
    ⟨[[.atom (.group 1 [[.atom (.test (.literal 'a')) (some .star)],
        [.atom (.test (.literal 'b')) none]]) (some .plus),
      .atom (.backref 1) (some .optional)]], 1⟩
  let p' : Pattern :=
    ⟨[[.atom (.group 1 [[.atom (.test (.literal 'a')) (some (.counted ⟨0, none⟩))],
        [.atom (.test (.literal 'b')) none]]) (some (.counted ⟨1, none⟩)),
      .atom (.backref 1) (some (.counted ⟨0, some 1⟩))]], 1⟩
  have hr : RegexBuilder.build ⟨"(a*|b)+\\1?", {}⟩ = .ok ⟨"(a*|b)+\\1?", Graph.ofPattern p⟩ := by
    with_unfolding_all rfl
  have hp : Pattern.read {} "(a*|b)+\\1?".toList = .ok p := by with_unfolding_all rfl
  have hr' : RegexBuilder.build ⟨"(a\x7b0,\x7d|b)\x7b1,\x7d\\1\x7b0,1\x7d", {}⟩ =
      .ok ⟨"(a\x7b0,\x7d|b)\x7b1,\x7d\\1\x7b0,1\x7d", Graph.ofPattern p'⟩ := by
    with_unfolding_all rfl
  have hp' : Pattern.read {} "(a\x7b0,\x7d|b)\x7b1,\x7d\\1\x7b0,1\x7d".toList = .ok p' := by
    with_unfolding_all rfl
  have h : Branches.Respelled p.branches p'.branches :=
    .cons (.quantified
      (.group 1 (.cons (.quantified (.test _) .star .nil) (.cons (.atom (.test _) .nil) .nil)))
      .plus (.quantified (.backref 1) .optional .nil)) .nil
  have hspan : ((Regex.mk "(a*|b)+\\1?" (Graph.ofPattern p)).captures? "abb").map (·.span? 1) =
      some (some ⟨some 2, some 3⟩) := by decide +kernel
  exact ⟨_, _, hr, hr', hspan, captures?_eq_of_respelled hr hp hr' hp' h "abb"⟩

end PatternGraph
