import PatternGraph.Proofs.Graph.Bodies
import PatternGraph.Proofs.Search.Path

/-!
# What is counted along a path

A repetition counts while the path is on its body. On the way out of it the count is taken back, so
nothing is counted where the path arrives.

* `Held`: what is counted is counted where it may be;
* **`Held.move`**: it stays so along every move;
* **`Held.eq_zero`**: at the terminal nothing is counted.
-/

namespace PatternGraph

/-- Where passes are counted, the node `v` is in the body, or it is the one that counts. -/
def Held (ns : Array Node) (counts : Nat → Nat) (v : Nat) : Prop :=
  ∀ r, counts r ≠ 0 → ∃ n a, HasBody ns r n a ∧ (v = r ∨ n ≤ v ∧ v < a.after n)

section

variable {p : Pattern} {subject : Array Char} {x y : Place} {mem mem' : Memory}

theorem held_empty (ns : Array Node) (v : Nat) : Held ns Memory.empty.counts v := by
  intro r hr
  exact absurd rfl hr

/-- **At the terminal nothing is counted.** -/
theorem Held.eq_zero {ns : Array Node} {counts : Nat → Nat} (h : Held ns counts 1) (r : Nat) :
    counts r = 0 := by
  by_contra hr
  obtain ⟨n, a, ⟨hn, hra, -⟩, hv⟩ := h r hr
  have ha := a.lt_after n
  omega

theorem HasBody.onto {ns : Array Node} {r n v w : Nat} {a : Atom} {nd : Node}
    (h : HasBody ns r n a) (h1 : n ≤ v) (h2 : v < a.after n) (hn : ns[v]? = some nd)
    (hw : w ∈ nd.onto) : w = r ∨ n ≤ w ∧ w < a.after n :=
  (onto_atom hn hw a n h.2.2.1 h1 h2).imp_left List.mem_singleton.1

/-- **Along a move what is counted stays where it may be.** -/
theorem Held.move (h : Held (Graph.ofPattern p).nodes mem.counts x.node)
    (hm : Move (Graph.ofPattern p) subject x mem y mem') :
    Held (Graph.ofPattern p).nodes mem'.counts y.node := by
  -- an edge from another node than the one that counts
  have hedge : ∀ {r : Nat} {nd : Node}, (Graph.ofPattern p).nodes[x.node]? = some nd →
      y.node ∈ nd.onto → x.node ≠ r → mem.counts r ≠ 0 →
      ∃ n a, HasBody (Graph.ofPattern p).nodes r n a ∧
        (y.node = r ∨ n ≤ y.node ∧ y.node < a.after n) := by
    intro r nd hn hw hne hr
    obtain ⟨n, a, hbody, hv⟩ := h r hr
    obtain ⟨h1, h2⟩ := hv.resolve_left hne
    exact ⟨n, a, hbody, hbody.onto h1 h2 hn hw⟩
  -- a node that is not a repetition does not count
  have hkind : ∀ {r : Nat} {nd : Node}, (Graph.ofPattern p).nodes[x.node]? = some nd →
      (∀ b e, nd.kind ≠ .repetition b e) → mem.counts r ≠ 0 → x.node ≠ r := by
    rintro r nd hn hk hr rfl
    obtain ⟨n, a, ⟨-, -, -, b, hb⟩, -⟩ := h _ hr
    rw [hn] at hb
    cases hb
    exact hk _ _ rfl
  intro r hr
  cases hm with
  | read hn hw => exact hedge hn hw (hkind hn (by simp) hr) hr
  | join hn hw => exact hedge hn hw (hkind hn (by simp) hr) hr
  | openGroup hn hw => exact hedge hn hw (hkind hn (by simp) hr) hr
  | closeGroup hn hw => exact hedge hn hw (hkind hn (by simp) hr) hr
  | copy hn hw => exact hedge hn hw (hkind hn (by simp) hr) hr
  | anchor hn hw => exact hedge hn hw (hkind hn (by simp) hr) hr
  | @loop node _ _ w _ _ _ hn hw =>
    by_cases hne : node = r
    · subst hne
      obtain ⟨n, a, hbody⟩ := hasBody_ofPattern hn
      obtain ⟨b, hb⟩ := hbody.2.2.2
      rw [hn] at hb
      cases hb
      obtain rfl := List.mem_singleton.1 hw
      exact ⟨w, a, hbody, .inr ⟨Nat.le_refl w, a.lt_after w⟩⟩
    · rw [mem.counts_setCount_of_ne (Ne.symm hne)] at hr
      exact hedge hn (List.mem_append_left _ hw) hne hr
  | @leave node _ _ _ exit _ hn =>
    by_cases hne : node = r
    · subst hne
      exact absurd (mem.counts_setCount_self node 0) hr
    · rw [mem.counts_setCount_of_ne (Ne.symm hne)] at hr
      exact hedge hn (List.mem_append_right _ (List.mem_singleton.2 rfl)) hne hr

end

end PatternGraph
