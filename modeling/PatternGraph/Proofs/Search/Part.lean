import PatternGraph.Proofs.Graph.Either
import PatternGraph.Proofs.Graph.WellFormed
import PatternGraph.Proofs.Search.Recursion

/-!
# Searching a graph that is part of another

A search that has come into a part of a graph goes on there as it does in the part by itself: no
edge leads out of the part, and its nodes do the same. What it captures has other numbers, and what
it counts is counted at other nodes; groups that are not of the part stay without an instance.

* `Memory.Covers`, `Attempt.Covers`: what has been captured, counted and marked on both sides;
* `NodeKind.effect?_covers`: a node does the same in the part and in the whole;
* **`found?_tryMatch_part`**: calls for a node and for what it is in the whole find the same;
* **`found?_start_part`**: so does the search along the part, and what is tried of it from the start
  of the whole.
-/

namespace PatternGraph

/-! ## What has been captured and counted -/

/-- What is captured and counted in the part is captured and counted in the whole as well. Groups
that are not of the part have no instance. -/
structure Memory.Covers (ρ : Renaming) (mem' mem : Memory) : Prop where
  captures : ∀ k, mem'.captures (ρ.number k) = mem.captures k
  others : ∀ k, (∀ j ≤ ρ.groups, ρ.number j ≠ k) → mem'.captures k = []
  counts : ∀ v, mem'.counts (ρ.index v) = mem.counts v

/-- Besides, the same places are marked. -/
structure Attempt.Covers (ρ : Renaming) (st' st : Attempt) : Prop where
  memory : st'.memory.Covers ρ st.memory
  marked : ∀ v o, ⟨ρ.index v, o⟩ ∈ st'.marked ↔ ⟨v, o⟩ ∈ st.marked

section

variable {ρ : Renaming} {mem mem' : Memory} {k : Nat}

theorem Attempt.covers_initial (ρ : Renaming) : Attempt.initial.Covers ρ .initial :=
  ⟨⟨fun _ => rfl, fun _ _ => rfl, fun _ => rfl⟩,
    fun _ _ => iff_of_false (Finset.notMem_empty _) (Finset.notMem_empty _)⟩

theorem Memory.Covers.setCaptures (h : mem'.Covers ρ mem) (hk : k ≤ ρ.groups)
    (instances : List Span) :
    Memory.Covers ρ ⟨Function.update mem'.captures (ρ.number k) instances, mem'.counts⟩
      ⟨Function.update mem.captures k instances, mem.counts⟩ := by
  refine ⟨fun j => ?_, fun j hj => ?_, h.counts⟩
  · by_cases hjk : j = k
    · subst hjk
      simp only [Function.update_self]
    · simp only [Function.update_of_ne hjk, Function.update_of_ne (ρ.number_injective.ne hjk),
        h.captures]
  · simp only [Function.update_of_ne (hj k hk).symm, h.others j hj]

theorem Memory.Covers.openGroup (h : mem'.Covers ρ mem) (hk : k ≤ ρ.groups) (offset : Nat) :
    (mem'.openGroup (ρ.number k) offset).Covers ρ (mem.openGroup k offset) := by
  rw [Memory.openGroup, Memory.openGroup, h.captures]
  exact h.setCaptures hk _

theorem Memory.Covers.closeGroup (h : mem'.Covers ρ mem) (hk : k ≤ ρ.groups) (offset : Nat) :
    (mem'.closeGroup (ρ.number k) offset).Covers ρ (mem.closeGroup k offset) := by
  rw [Memory.closeGroup, Memory.closeGroup, h.captures]
  exact h.setCaptures hk _

theorem Memory.Covers.setCount (h : mem'.Covers ρ mem) (v count : Nat) :
    (mem'.setCount (ρ.index v) count).Covers ρ (mem.setCount v count) := by
  refine ⟨h.captures, h.others, fun w => ?_⟩
  by_cases hwv : w = v
  · rw [hwv, Memory.counts_setCount_self, Memory.counts_setCount_self]
  · rw [Memory.counts_setCount_of_ne _ hwv,
      Memory.counts_setCount_of_ne _ (ρ.index_injective.ne hwv), h.counts]

/-- **A node does the same in the part and in the whole.** -/
theorem NodeKind.effect?_covers (h : mem'.Covers ρ mem) {kind : NodeKind}
    (hfits : kind.Fits ρ.groups) (hbackref : ∀ k, kind = .backref k → ρ.number k = k)
    (subject : Array Char) (i : Nat) :
    Option.Rel (fun x x' => x'.1 = x.1 ∧ x'.2.Covers ρ x.2) (kind.effect? subject i mem)
      ((kind.renamed ρ.index ρ.number).effect? subject i mem') := by
  cases kind with
  | test t =>
    simp only [renamed, effect?]
    split
    · exact .some ⟨rfl, h⟩
    · exact .none
  | anchor a =>
    simp only [renamed, effect?]
    split
    · exact .some ⟨rfl, h⟩
    · exact .none
  | groupClose k =>
    simp only [renamed, effect?, h.captures]
    split
    · exact .none
    · exact .some ⟨rfl, h.closeGroup hfits i⟩
  | backref k =>
    have hlatest : mem'.latest k = mem.latest k := by
      rw [Memory.latest, Memory.latest, ← h.captures, hbackref k rfl]
    simp only [renamed, effect?, hlatest]
    cases (mem.latest k).copyEnd? subject i with
    | none => exact .none
    | some stop => exact .some ⟨rfl, h⟩
  | join => exact .some ⟨rfl, h⟩
  | groupOpen k => exact .some ⟨rfl, h.openGroup hfits i⟩
  | terminal | repetition => exact .none

end

/-! ## Ways on -/

section

variable {ρ : Renaming} {g g' : Graph} {subject : Array Char} {mem mem' : Memory}
  {st st' : Attempt} {p p' : Place} {v o : Nat}

/-- A way on in the part, and what it is in the whole. -/
structure Covering (ρ : Renaming) (x x' : Place × Memory) : Prop where
  place : x'.1 = ⟨ρ.index x.1.node, x.1.offset⟩
  memory : x'.2.Covers ρ x.2

theorem covering_places (h : mem'.Covers ρ mem) (next : List Nat) (j : Nat) :
    List.Forall₂ (Covering ρ) (places next j mem) (places (next.map ρ.index) j mem') := by
  induction next with
  | nil => exact .nil
  | cons w next ih => exact .cons ⟨rfl, h⟩ ih

/-- The same has been found in the part and in the whole, or nothing in both. -/
abbrev FoundAlike (ρ : Renaming) (found found' : Option Attempt) : Prop :=
  Option.Rel (fun out out' => out'.memory.Covers ρ out.memory) found found'

/-- Wherever the search goes on from the place `p`, which is marked then, the same is found. -/
def FoundBehind (ρ : Renaming) (g g' : Graph) (subject : Array Char) (p p' : Place)
    (st st' : Attempt) : Prop :=
  ∀ w, Edge g.nodes p.node w → ∀ (j : Nat) (m m' : Memory), m'.Covers ρ m →
    FoundAlike ρ (found? (tryMatch g subject ⟨w, j⟩ ⟨(st.mark p).marked, m⟩))
      (found? (tryMatch g' subject ⟨ρ.index w, j⟩ ⟨(st'.mark p').marked, m'⟩))

theorem FoundBehind.rel_tryMoves (hgo : FoundBehind ρ g g' subject p p' st st')
    {ways ways' : List (Place × Memory)} (hf : List.Forall₂ (Covering ρ) ways ways')
    (hedge : ∀ x ∈ ways, Edge g.nodes p.node x.1.node) :
    FoundAlike ρ (tryMoves g subject st p ways) (tryMoves g' subject st' p' ways') := by
  refine rel_findSome? hf ?_
  rintro ⟨⟨w, j⟩, m⟩ hx ⟨q, m'⟩ ⟨hplace, hm⟩
  simp only at hplace hm
  subst hplace
  exact hgo w (hedge _ hx) j m m' hm

theorem Node.mem_onto {nd : Node} {w : Nat} (h : w ∈ nd.next) : w ∈ nd.onto := by
  unfold onto
  split
  · exact List.mem_append_left _ h
  · exact h

theorem FoundBehind.rel_places (hgo : FoundBehind ρ g g' subject p p' st st') {nd : Node}
    (hn : g.nodes[p.node]? = some nd) (h : mem'.Covers ρ mem) (j : Nat) :
    FoundAlike ρ (tryMoves g subject st p (places nd.next j mem))
      (tryMoves g' subject st' p' (places (nd.next.map ρ.index) j mem')) :=
  hgo.rel_tryMoves (covering_places h nd.next j) fun _ hx =>
    edge_of_node hn (Node.mem_onto (mem_places.1 hx).1)

/-! ## Side by side -/

theorem Attempt.Covers.marked_mark (h : st'.Covers ρ st) (w j : Nat) :
    (⟨ρ.index w, j⟩ : Place) ∈ (st'.mark ⟨ρ.index v, o⟩).marked ↔
      ⟨w, j⟩ ∈ (st.mark ⟨v, o⟩).marked := by
  simp only [Attempt.mark, Finset.mem_insert, Place.mk.injEq, ρ.index_injective.eq_iff, h.marked]

section

variable (hpart : g.PartOf g' ρ) {kind : NodeKind} {next : List Nat}

include hpart

theorem Graph.PartOf.covering_repetition {b : Bounds} {exit : Nat} (hv : v ≠ g.start)
    (hn : g.nodes[v]? = some ⟨.repetition b exit, next⟩) (h : mem'.Covers ρ mem) :
    List.Forall₂ (Covering ρ) (moves g subject ⟨v, o⟩ mem)
      (moves g' subject ⟨ρ.index v, o⟩ mem') := by
  rw [moves_repetition hn, moves_repetition (hpart.nodes hv hn), h.counts]
  by_cases he : b.exceeded (mem.counts v + 1)
  · rw [if_pos he, if_pos he]
    exact .nil
  rw [if_neg he, if_neg he]
  refine List.rel_append ?_ ?_
  · by_cases hl : b.mayLoop (mem.counts v + 1)
    · rw [if_pos hl, if_pos hl]
      exact covering_places (h.setCount v _) next o
    · rw [if_neg hl, if_neg hl]
      exact .nil
  · by_cases hs : b.satisfied (mem.counts v + 1)
    · rw [if_pos hs, if_pos hs]
      exact .cons ⟨rfl, h.setCount v 0⟩ .nil
    · rw [if_neg hs, if_neg hs]
      exact .nil

section

variable (hv : v ≠ g.start) (h : st'.Covers ρ st)
  (hfree : o ≤ subject.size ∧ ⟨v, o⟩ ∉ st.marked)
  (hfree' : o ≤ subject.size ∧ ⟨ρ.index v, o⟩ ∉ st'.marked)

include hv h hfree hfree'

theorem Graph.PartOf.foundAlike_terminal (hn : g.nodes[v]? = some ⟨.terminal, next⟩) :
    FoundAlike ρ (found? (tryMatch g subject ⟨v, o⟩ st))
      (found? (tryMatch g' subject ⟨ρ.index v, o⟩ st')) := by
  have hopened := h.memory.captures 0
  have hclose := h.memory.closeGroup (Nat.zero_le _) o
  rw [ρ.number_zero] at hopened hclose
  rw [tryMatch_terminal hn hfree, tryMatch_terminal (hpart.nodes hv hn) hfree', hopened]
  split
  · exact .some hclose
  · exact .none

variable (hgo : FoundBehind ρ g g' subject ⟨v, o⟩ ⟨ρ.index v, o⟩ st st')

include hgo

theorem Graph.PartOf.foundAlike_repetition {b : Bounds} {exit : Nat}
    (hn : g.nodes[v]? = some ⟨.repetition b exit, next⟩) :
    FoundAlike ρ (found? (tryMatch g subject ⟨v, o⟩ st))
      (found? (tryMatch g' subject ⟨ρ.index v, o⟩ st')) := by
  rw [tryMatch_of_repetition hn hfree, tryMatch_of_repetition (hpart.nodes hv hn) hfree',
    found?_elim, found?_elim]
  exact hgo.rel_tryMoves (hpart.covering_repetition hv hn h.memory) fun x hx =>
    (mem_moves.1 hx).exists_onto

theorem Graph.PartOf.foundAlike_effect (hn : g.nodes[v]? = some ⟨kind, next⟩)
    (hfits : kind.Fits ρ.groups) (hterm : kind ≠ .terminal)
    (hone : ∀ b exit, kind ≠ .repetition b exit) :
    FoundAlike ρ (found? (tryMatch g subject ⟨v, o⟩ st))
      (found? (tryMatch g' subject ⟨ρ.index v, o⟩ st')) := by
  rw [tryMatch_of_effect hn hterm hone hfree, tryMatch_of_effect (hpart.nodes hv hn)
    (NodeKind.renamed_ne_terminal hterm) (NodeKind.renamed_ne_repetition hone) hfree',
    found?_elim, found?_elim]
  have heffect := NodeKind.effect?_covers h.memory hfits
    (fun k hk => hpart.backref (hk ▸ hn)) subject o
  generalize kind.effect? subject o st.memory = found at heffect ⊢
  generalize NodeKind.effect? subject o st'.memory _ = found' at heffect ⊢
  cases heffect with
  | none => exact .none
  | @some x x' hx =>
    obtain ⟨hoffset, hm⟩ := hx
    rw [Option.bind_some, Option.bind_some, hoffset]
    exact hgo.rel_places hn hm x.1

end

variable (hw : g.WellFormed)

include hw

/-- **Calls for a node and for what it is in the whole find the same.** -/
theorem found?_tryMatch_part (hv : v ≠ g.start) (hlt : v < g.size) (h : st'.Covers ρ st) :
    FoundAlike ρ (found? (tryMatch g subject ⟨v, o⟩ st))
      (found? (tryMatch g' subject ⟨ρ.index v, o⟩ st')) := by
  -- the induction is on the places of the part that may still be marked
  induction hr : (st.unmarked g subject.size).card using Nat.strongRecOn
    generalizing v o st st' with
  | _ r ih =>
  subst hr
  by_cases hfree : o ≤ subject.size ∧ ⟨v, o⟩ ∉ st.marked
  swap
  · rw [tryMatch_of_not hfree, tryMatch_of_not (by rwa [h.marked])]
    exact .none
  have hfree' : o ≤ subject.size ∧ ⟨ρ.index v, o⟩ ∉ st'.marked := by rwa [h.marked]
  obtain ⟨⟨kind, next⟩, hn⟩ : ∃ nd, g.nodes[v]? = some nd :=
    ⟨_, Array.getElem?_eq_getElem hlt⟩
  -- no edge leads back to the start, so all that is behind the node is in the part
  have hgo : FoundBehind ρ g g' subject ⟨v, o⟩ ⟨ρ.index v, o⟩ st st' := fun w hedge j m m' hm =>
    ih _ (Attempt.card_unmarked_mark_lt hn hfree m) (fun he => hw.fromStart v (he ▸ hedge))
      (hw.edges v w hedge) ⟨hm, h.marked_mark⟩ rfl
  have hfits := hw.groups v _ hn
  rw [hpart.groups] at hfits
  by_cases hterm : kind = .terminal
  · subst hterm
    exact hpart.foundAlike_terminal hv h hfree hfree' hn
  by_cases hrep : ∃ b exit, kind = .repetition b exit
  · obtain ⟨b, exit, rfl⟩ := hrep
    exact hpart.foundAlike_repetition hv h hfree hfree' hgo hn
  · exact hpart.foundAlike_effect hv h hfree hfree' hgo hn hfits hterm fun b exit he =>
      hrep ⟨b, exit, he⟩

/-- **The search along the part finds what the search along the whole does where it tries the ways
into the part.** -/
theorem found?_start_part (hn : g.nodes[g.start]? = some ⟨.groupOpen 0, next⟩) :
    FoundAlike ρ (found? (tryMatch g subject ⟨g.start, 0⟩ .initial))
      (tryMoves g' subject .initial ⟨g'.start, 0⟩
        (places (next.map ρ.index) 0 (Memory.empty.openGroup 0 0))) := by
  have hcovers := Attempt.covers_initial ρ
  have hopen := hcovers.memory.openGroup (Nat.zero_le _) 0
  rw [ρ.number_zero] at hopen
  have hgo : FoundBehind ρ g g' subject ⟨g.start, 0⟩ ⟨ρ.index g.start, 0⟩ .initial .initial :=
    fun w hedge j m m' hm => found?_tryMatch_part hpart hw
      (fun he => hw.fromStart g.start (he ▸ hedge)) (hw.edges _ w hedge)
      ⟨hm, hcovers.marked_mark⟩
  rw [tryMatch_of_effect hn (by simp) (by simp) ⟨Nat.zero_le _, Finset.notMem_empty _⟩,
    found?_elim, ← hpart.start]
  exact hgo.rel_places hn hopen 0

end

end

end PatternGraph
