import Mathlib.Logic.Function.Basic
import PatternGraph.Proofs.Pattern.Nullable

/-!
# Counting passes

A counted repetition keeps its count at the node behind its join. Before it is entered nothing is
counted there, nor at any node of its body.

* `Bounds.Allows`: so many passes are within the bounds;
* `Idle`: nothing is counted at the nodes of a part;
* `Quantifier.counting`: the counts when so many passes have been made.
-/

namespace PatternGraph

/-! ## Bounds -/

/-- So many passes are within the bounds. -/
def Bounds.Allows (b : Bounds) (count : Nat) : Prop := b.min ≤ count ∧ ∀ max ∈ b.max, count ≤ max

section

variable {b : Bounds} {count : Nat}

theorem Bounds.satisfied_iff : b.satisfied count ↔ b.min ≤ count := by simp [satisfied]

theorem Bounds.mayLoop_iff : b.mayLoop count ↔ ∀ max ∈ b.max, count < max := by
  obtain ⟨low, _ | high⟩ := b <;> simp [mayLoop]

theorem Bounds.not_exceeded_iff : ¬ b.exceeded count ↔ ∀ max ∈ b.max, count ≤ max := by
  obtain ⟨low, _ | high⟩ := b <;> simp [exceeded]

theorem Bounds.allows_iff : b.Allows count ↔ ¬ b.exceeded count ∧ b.satisfied count := by
  rw [not_exceeded_iff, satisfied_iff, Allows, and_comm]

theorem Bounds.mayLoop_iff_not_exceeded : b.mayLoop count ↔ ¬ b.exceeded (count + 1) := by
  rw [mayLoop_iff, not_exceeded_iff]
  rfl

end

/-! ## Counts -/

/-- No passes are counted from `low` on, below `high`. -/
def Idle (counts : Nat → Nat) (low high : Nat) : Prop := ∀ v, low ≤ v → v < high → counts v = 0

theorem Idle.mono {counts : Nat → Nat} {low high low' high' : Nat} (h : Idle counts low high)
    (hl : low ≤ low') (hh : high' ≤ high) : Idle counts low' high' :=
  fun v h1 h2 => h v (Nat.le_trans hl h1) (Nat.lt_of_lt_of_le h2 hh)

section

variable {n m : Nat} {q : Quantifier} {counts : Nat → Nat} {count : Nat}

/-- The counts when so many passes have been made over the body of a quantifier at `m`. -/
def Quantifier.counting (m : Nat) (counts : Nat → Nat) (count : Nat) : Quantifier → Nat → Nat
  | .counted _ => Function.update counts (m + 1) count
  | _ => counts

theorem Quantifier.counting_of_lt {v : Nat} (hv : v < m) :
    q.counting m counts count v = counts v := by
  cases q with
  | counted b => exact Function.update_of_ne (by omega) _ _
  | _ => rfl

theorem Idle.counting (h : Idle counts n (m + q.nodes)) (count : Nat) :
    Idle (q.counting m counts count) n m := by
  intro v h1 h2
  rw [Quantifier.counting_of_lt h2]
  exact h v h1 (by omega)

theorem Quantifier.counting_zero (h : Idle counts n (m + q.nodes)) (hn : n ≤ m) :
    q.counting m counts 0 = counts := by
  cases q with
  | counted b =>
    exact Function.update_eq_self_iff.2 (h (m + 1) (by omega) (Nat.lt_succ_self _)).symm
  | _ => rfl

end

end PatternGraph
