import Mathlib.Logic.ExistsUnique
import PatternGraph.Proofs.Graph.Placement
import PatternGraph.Proofs.Pattern.Numbers

/-!
# How often a kind of node occurs

The nodes of a pattern's graph are those its parts ask for, each of them once. So the nodes of a
group occur as often as the number of the group occurs in the pattern.

* `tally`: how many nodes have a property, `tally_append`;
* `NodeKind.OfGroup`: the property is that of one of the two nodes of a group;
* **`tally_ofPattern`**: a graph has as many nodes with it as its pattern has groups of that number;
* `OccursOnce`, **`occursOnce_groupOpen`**, `occursOnce_groupClose`: every group of a pattern that
  has been read is opened by one node and closed by one.
-/

namespace PatternGraph

/-- How many nodes are of a kind with the property. -/
def tally (P : NodeKind → Bool) (ns : Array Node) : Nat := ns.toList.countP (P ·.kind)

/-- The property holds for one of the two nodes of the group `k`, and for no node otherwise, apart
from the terminal. -/
structure NodeKind.OfGroup (P : NodeKind → Bool) (k : Nat) : Prop where
  group : ∀ j, (P (.groupOpen j)).toNat + (P (.groupClose j)).toNat = if j = k then 1 else 0
  test : ∀ t, P (.test t) = false
  backref : ∀ j, P (.backref j) = false
  anchor : ∀ a, P (.anchor a) = false
  join : P .join = false
  repetition : ∀ b exit, P (.repetition b exit) = false

section

variable {P : NodeKind → Bool} {k : Nat} {ns : Array Node}

theorem tally_push (P : NodeKind → Bool) (ns : Array Node) (nd : Node) :
    tally P (ns.push nd) = tally P ns + (P nd.kind).toNat := by
  rw [tally, Array.toList_push, List.countP_append, tally]
  cases h : P nd.kind <;> simp [h]

theorem tally_append (P : NodeKind → Bool) (ns : Array Node) (added : List Node) :
    tally P (ns ++ added) = tally P ns + added.countP (P ·.kind) := by
  rw [tally, Array.toList_appendList, List.countP_append, tally]

theorem tally_layout (h : NodeKind.OfGroup P k) (n m : Nat) (following : List Nat)
    (q : Quantifier) : (q.layout n m following).countP (P ·.kind) = 0 := by
  cases q <;> simp [Quantifier.layout, h.join, h.repetition]

mutual

theorem tally_layoutAtom (h : NodeKind.OfGroup P k) {onward : List Nat} :
    ∀ (a : Atom) (ns : Array Node), tally P (layoutAtom onward a ns) =
      tally P ns + a.numbers.count k
  | .test t, ns => by
    rw [layoutAtom, tally_push, h.test]
    rfl
  | .backref j, ns => by
    rw [layoutAtom, tally_push, h.backref]
    rfl
  | .group j bs, ns => by
    rw [layoutAtom, tally_layoutBranches h bs, tally_push, tally_push, Atom.numbers,
      List.count_cons]
    have hgroup := h.group j
    by_cases hj : j = k
    · rw [if_pos hj] at hgroup
      simp only [hj, beq_self_eq_true, if_true] at hgroup ⊢
      omega
    · rw [if_neg hj] at hgroup
      rw [if_neg (by simpa using hj)]
      dsimp only
      omega

theorem tally_layoutBranches (h : NodeKind.OfGroup P k) {close : Nat} :
    ∀ (bs : List (List Item)) (ns : Array Node), tally P (layoutBranches close bs ns) =
      tally P ns + (Branches.numbers bs).count k
  | [], _ => rfl
  | b :: bs, ns => by
    rw [layoutBranches, tally_layoutBranches h bs, tally_layoutBranch h b, Branches.numbers,
      List.count_append, Nat.add_assoc]

theorem tally_layoutBranch (h : NodeKind.OfGroup P k) {close : Nat} :
    ∀ (b : List Item) (ns : Array Node), tally P (layoutBranch close b ns) =
      tally P ns + (Branch.numbers b).count k
  | [], _ => rfl
  | .anchor a :: rest, ns => by
    rw [layoutBranch, tally_layoutBranch h rest, tally_push, h.anchor]
    rfl
  | .atom a none :: rest, ns => by
    rw [layoutBranch, tally_layoutBranch h rest, tally_layoutAtom h a, Branch.numbers,
      List.count_append, Nat.add_assoc]
  | .atom a (some q) :: rest, ns => by
    rw [layoutBranch, tally_layoutBranch h rest, tally_append, tally_layout h, tally_layoutAtom h a,
      Branch.numbers, List.count_append, Nat.add_zero, Nat.add_assoc]

end

/-- **A graph has as many nodes of a group as its pattern has groups of that number**, and those of
the whole match at its ends. -/
theorem tally_ofPattern (h : NodeKind.OfGroup P k) (p : Pattern) :
    tally P (Graph.ofPattern p).nodes =
      (P (.groupOpen 0)).toNat + (P .terminal).toNat + (Branches.numbers p.branches).count k := by
  rw [Graph.ofPattern, tally_layoutBranches h]
  congr 1
  cases ho : P (.groupOpen 0) <;> cases ht : P .terminal <;> simp [tally, ho, ht]

end

theorem eq_of_countP_le_one {α : Type} {P : α → Bool} {x y : α} : ∀ {xs : List α} {i j : Nat},
    xs.countP P ≤ 1 → xs[i]? = some x → P x → xs[j]? = some y → P y → i = j
  | [], _, _, _, h, _, _, _ => by simp at h
  | z :: xs, 0, 0, _, _, _, _, _ => rfl
  | z :: xs, i + 1, j + 1, hc, hi, hx, hj, hy =>
    have hrest : xs.countP P ≤ 1 := Nat.le_trans (by simp [List.countP_cons]) hc
    congrArg (· + 1) (eq_of_countP_le_one hrest (by simpa using hi) hx (by simpa using hj) hy)
  | z :: xs, 0, j + 1, hc, hi, hx, hj, hy => by
    obtain rfl : z = x := by simpa using hi
    have hpos : 0 < xs.countP P := List.countP_pos_iff.2
      ⟨y, List.mem_of_getElem? (by simpa using hj), hy⟩
    rw [List.countP_cons_of_pos hx] at hc
    omega
  | z :: xs, i + 1, 0, hc, hi, hx, hj, hy => by
    obtain rfl : z = y := by simpa using hj
    have hpos : 0 < xs.countP P := List.countP_pos_iff.2
      ⟨x, List.mem_of_getElem? (by simpa using hi), hx⟩
    rw [List.countP_cons_of_pos hy] at hc
    omega

/-- There is exactly one node of the kind. -/
def OccursOnce (ns : Array Node) (kind : NodeKind) : Prop :=
  ∃! v : Nat, ∃ next, ns[v]? = some ⟨kind, next⟩

theorem occursOnce_of_tally {kind : NodeKind} {ns : Array Node} (h : tally (· = kind) ns = 1) :
    OccursOnce ns kind := by
  have hmem : ∃ nd ∈ ns.toList, nd.kind = kind := by
    obtain ⟨nd, hnd, hk⟩ := List.countP_pos_iff.1 (Nat.lt_of_lt_of_eq Nat.one_pos h.symm)
    exact ⟨nd, hnd, by simpa using hk⟩
  obtain ⟨⟨x, next⟩, hnd, hk⟩ := hmem
  obtain rfl : x = kind := hk
  obtain ⟨v, hv⟩ := List.mem_iff_getElem?.1 hnd
  refine ⟨v, ⟨next, by simpa using hv⟩, ?_⟩
  rintro w ⟨next', hw⟩
  exact eq_of_countP_le_one (P := fun nd : Node => nd.kind = x) (Nat.le_of_eq h)
    (by simpa using hw) (by simp) hv (by simp)

/-! ## The groups of a pattern -/

section

variable {p : Pattern} (hp : Branches.numbers p.branches = List.range' 1 p.groups)

include hp

theorem count_numbers {k : Nat} (hk : 1 ≤ k) (hle : k ≤ p.groups) :
    (Branches.numbers p.branches).count k = 1 := by
  rw [hp, List.Nodup.count List.nodup_range', if_pos (List.mem_range'_1.2 ⟨hk, by omega⟩)]

/-- **Every group is opened by one node**, and so is the whole match. -/
theorem occursOnce_groupOpen {k : Nat} (hk : k ≤ p.groups) :
    OccursOnce (Graph.ofPattern p).nodes (.groupOpen k) := by
  have hgroup : NodeKind.OfGroup (· = .groupOpen k) k := by
    refine ⟨fun j => ?_, by simp, by simp, by simp, by simp, by simp⟩
    by_cases hj : j = k <;> simp [hj]
  apply occursOnce_of_tally
  rw [tally_ofPattern hgroup]
  rcases Nat.eq_zero_or_pos k with rfl | hpos
  · have hnone : (Branches.numbers p.branches).count 0 = 0 := by
      rw [hp]
      exact List.count_eq_zero_of_not_mem fun h => absurd (List.mem_range'_1.1 h).1 (by decide)
    simp [hnone]
  · rw [count_numbers hp hpos hk]
    simp [Nat.ne_of_lt hpos]

/-- **Every group is closed by one node.** -/
theorem occursOnce_groupClose {k : Nat} (hpos : 1 ≤ k) (hk : k ≤ p.groups) :
    OccursOnce (Graph.ofPattern p).nodes (.groupClose k) := by
  have hgroup : NodeKind.OfGroup (· = .groupClose k) k := by
    refine ⟨fun j => ?_, by simp, by simp, by simp, by simp, by simp⟩
    by_cases hj : j = k <;> simp [hj]
  apply occursOnce_of_tally
  rw [tally_ofPattern hgroup, count_numbers hp hpos hk]
  simp

end

end PatternGraph
