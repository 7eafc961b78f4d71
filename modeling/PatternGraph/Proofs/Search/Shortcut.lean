import Mathlib.Data.List.Nodup
import PatternGraph.Proofs.Search.Path

/-!
# Cutting detours out of a path

Without back references it does not matter to a path what has been captured, only what has been
counted. A detour that comes back to its place has not read anything, and if it has not passed a
repetition either, then it can be left out.

* `Graph.Plain`: there are no back references, **`Path.congr`**: only the counts matter;
* `Walk`: moves one after the other, `Walk.counts_eq`: without reading they count nothing, unless
  they pass a repetition;
* `Graph.Tame`: no repetition is on a quiet cycle;
* **`exists_nodup_path`**: then what can be come to at all can be come to without coming to a place
  twice.
-/

namespace PatternGraph

/-- No node is a back reference. -/
def Graph.Plain (g : Graph) : Prop :=
  ∀ (i : Nat) (nd : Node), g.nodes[i]? = some nd → ∀ k, nd.kind ≠ .backref k

/-- No repetition is on a quiet cycle. -/
def Graph.Tame (g : Graph) : Prop :=
  ∀ (r : Nat) (b : Bounds) (exit : Nat) (next : List Nat),
    g.nodes[r]? = some ⟨.repetition b exit, next⟩ → ¬ Relation.TransGen (Quiet g.nodes) r r

section

variable {g : Graph} {subject : Array Char} {p q : Place} {mem mem' mem₁ : Memory}
  {path : List Place}

/-! ## Only the counts matter -/

theorem Move.congr (hg : g.Plain) (h : Move g subject p mem q mem')
    (hc : mem.counts = mem₁.counts) :
    ∃ mem₁', Move g subject p mem₁ q mem₁' ∧ mem'.counts = mem₁'.counts := by
  cases h with
  | read hn hm ht => exact ⟨_, .read hn hm ht, hc⟩
  | join hn hm => exact ⟨_, .join hn hm, hc⟩
  | openGroup hn hm => exact ⟨_, .openGroup hn hm, hc⟩
  | closeGroup hn hm => exact ⟨_, .closeGroup hn hm, hc⟩
  | copy hn => exact absurd rfl (hg _ _ hn _)
  | loop hn hm he hl =>
    rw [hc] at he hl
    refine ⟨_, .loop hn hm he hl, ?_⟩
    simp only [Memory.setCount, hc]
  | leave hn he hs =>
    rw [hc] at he hs
    refine ⟨_, .leave hn he hs, ?_⟩
    simp only [Memory.setCount, hc]
  | anchor hn hm ha => exact ⟨_, .anchor hn hm ha, hc⟩

/-- **A path can be gone whatever has been captured**, if there are no back references. -/
theorem Path.congr (hg : g.Plain) (h : Path g subject p mem path)
    (hc : mem.counts = mem₁.counts) : Path g subject p mem₁ path := by
  induction h generalizing mem₁ with
  | arrive => exact .arrive mem₁
  | move hm _ ih =>
    obtain ⟨mem₁', hm', hc'⟩ := hm.congr hg hc
    exact .move hm' (ih hc')

/-! ## Walks -/

/-- Moves one after the other. -/
def Walk (g : Graph) (subject : Array Char) : Place × Memory → Place × Memory → Prop :=
  Relation.ReflTransGen fun x y => Move g subject x.1 x.2 y.1 y.2

theorem Walk.offset_le {x y : Place × Memory} (h : Walk g subject x y) :
    x.1.offset ≤ y.1.offset := by
  induction h with
  | refl => exact Nat.le_refl _
  | tail _ hm ih => exact Nat.le_trans ih hm.offset_le

/-- A walk that does not read is one along quiet edges. Either it passes a repetition, or nothing
is counted on it. -/
theorem Walk.quiet {x y : Place × Memory} (h : Walk g subject x y)
    (ho : x.1.offset = y.1.offset) :
    Relation.ReflTransGen (Quiet g.nodes) x.1.node y.1.node ∧
      ((∃ r b exit next, g.nodes[r]? = some ⟨.repetition b exit, next⟩ ∧
          Relation.ReflTransGen (Quiet g.nodes) x.1.node r ∧
          Relation.TransGen (Quiet g.nodes) r y.1.node) ∨ y.2.counts = x.2.counts) := by
  induction h with
  | refl => exact ⟨.refl, .inr rfl⟩
  | @tail y z hw hm ih =>
    have hxy := Walk.offset_le hw
    have hyz := hm.offset_le
    obtain ⟨hquiet, hcount⟩ := ih (by omega)
    have hedge : Quiet g.nodes y.1.node z.1.node := by
      rcases hm.lt_or_quiet with hlt | ⟨-, hedge⟩
      · omega
      · exact hedge
    refine ⟨hquiet.tail hedge, ?_⟩
    rcases hcount with ⟨r, b, exit, next, hn, hxr, hry⟩ | hcount
    · exact .inl ⟨r, b, exit, next, hn, hxr, hry.tail hedge⟩
    rcases hm.counts_eq with ⟨b, exit, next, hn⟩ | hstep
    · exact .inl ⟨_, b, exit, next, hn, hquiet, .single hedge⟩
    · exact .inr (hstep.trans hcount)

/-- **On a walk that comes back to its place nothing is counted.** -/
theorem Walk.counts_eq (ht : g.Tame)
    (h : Walk g subject (p, mem) (p, mem')) : mem'.counts = mem.counts := by
  rcases (h.quiet rfl).2 with ⟨r, b, exit, next, hn, hpr, hrp⟩ | h
  · exact absurd (Relation.TransGen.trans_left hrp hpr) (ht r b exit next hn)
  · exact h

/-! ## Without coming to a place twice -/

theorem Path.exists_rest (h : Path g subject p mem path) {x : Place} (hx : x ∈ path) :
    ∃ mem' rest, Path g subject x mem' rest ∧ rest <:+ path ∧
      Walk g subject (p, mem) (x, mem') := by
  induction h with
  | arrive mem =>
    rw [List.mem_singleton] at hx
    subst hx
    exact ⟨mem, _, .arrive mem, List.suffix_refl _, .refl⟩
  | @move p q mem mem₁ path hm hp ih =>
    rcases List.mem_cons.1 hx with rfl | hx
    · exact ⟨mem, _, .move hm hp, List.suffix_refl _, .refl⟩
    · obtain ⟨mem', rest, hr, hs, hw⟩ := ih hx
      exact ⟨mem', rest, hr, hs.trans (List.suffix_cons p path), .head hm hw⟩

/-- **What can be come to at all can be come to without coming to a place twice**, if there are no
back references and no repetition is on a quiet cycle. -/
theorem exists_nodup_path (hg : g.Plain) (ht : g.Tame) (h : Path g subject p mem path) :
    ∃ short, Path g subject p mem short ∧ short.Nodup ∧ short ⊆ path := by
  induction hl : path.length using Nat.strongRecOn generalizing p mem path with
  | _ len ih =>
  subst hl
  cases h with
  | arrive => exact ⟨_, .arrive mem, List.nodup_singleton _, List.Subset.refl _⟩
  | @move _ q _ mem' path hm hp =>
    by_cases hx : p ∈ path
    · -- the detour from the place back to it is left out
      obtain ⟨mem'', rest, hr, hs, hw⟩ := hp.exists_rest hx
      have hc : mem''.counts = mem.counts :=
        Walk.counts_eq ht (Relation.ReflTransGen.head hm hw)
      obtain ⟨short, hshort, hnd, hsub⟩ :=
        ih rest.length (Nat.lt_succ_of_le hs.length_le) (hr.congr hg hc) rfl
      exact ⟨short, hshort, hnd,
        List.Subset.trans hsub (List.Subset.trans hs.subset (List.subset_cons_self p path))⟩
    · obtain ⟨short, hshort, hnd, hsub⟩ := ih path.length (Nat.lt_succ_self _) hp rfl
      exact ⟨p :: short, .move hm hshort, List.nodup_cons.2 ⟨fun h => hx (hsub h), hnd⟩,
        List.cons_subset_cons p hsub⟩

end

end PatternGraph
