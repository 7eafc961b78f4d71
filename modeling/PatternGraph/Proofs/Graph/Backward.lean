import PatternGraph.Proofs.Graph.Balance

/-!
# Properties that go backward along edges

What holds for a node if it holds wherever its edges lead need not hold at all, since a graph has
cycles. It does if it also holds where a loop is entered.

* `Backward`: such a property;
* `Backward.branches`, `Backward.behind`: it holds where a part is entered, and behind an atom;
* **`Backward.ofPattern`**: all nodes of a pattern's graph have it.
-/

namespace PatternGraph

/-- A node has the property if all nodes have it to which its edges lead, and where a quantified
atom is entered it holds if it holds for all that follows, so that loops do not matter. -/
structure Backward (ns : Array Node) (P : Item → Prop) (S : Nat → Prop) : Prop where
  onto : ∀ {n : Nat}, (∀ nd, ns[n]? = some nd → ∀ w ∈ nd.onto, S w) → S n
  loop : ∀ {a : Atom} {q : Quantifier} {n : Nat} {following : List Nat},
    P (.atom a (some q)) → a.Every P → a.LiesAt ns (q.onward n (a.after n)) n →
    q.LiesAt ns n (a.after n) following → (∀ i ∈ following, S i) → S n

namespace Backward

variable {ns : Array Node} {P : Item → Prop} {S : Nat → Prop}

theorem of_onto (hb : Backward ns P S) {n : Nat} {nd : Node} (hn : ns[n]? = some nd)
    (h : ∀ w ∈ nd.onto, S w) : S n := by
  refine hb.onto fun nd' hn' => ?_
  rw [hn] at hn'
  cases hn'
  exact h

theorem join (hb : Backward ns P S) {n m : Nat} {following : List Nat} {q : Quantifier}
    (hq : q.LiesAt ns n m following) (hf : ∀ i ∈ following, S i) : S m := by
  cases q with
  | counted b => exact hb.of_onto hq.1 hf
  | _ => exact hb.of_onto hq hf

mutual

theorem atom (hb : Backward ns P S) {onward : List Nat} : ∀ (a : Atom) (n : Nat),
    a.LiesAt ns onward n → a.Every P → (∀ i ∈ onward, S i) → S n
  | .test _, _, h, _, ho => hb.of_onto h ho
  | .backref _, _, h, _, ho => hb.of_onto h ho
  | .group _ bs, n, h, he, ho =>
    hb.of_onto h.1 (branches hb bs (n + 2) h.2.2 he (hb.of_onto h.2.1 ho))

theorem branches (hb : Backward ns P S) {close : Nat} : ∀ (bs : List (List Item)) (n : Nat),
    Branches.LieAt ns close bs n → Branches.Every P bs → S close → ∀ i ∈ heads close bs n, S i
  | [], _, _, _, _ => by simp
  | b :: bs, n, h, he, hc => by
    intro i hi
    rw [heads_cons] at hi
    rcases List.mem_append.1 hi with hi | hi
    · exact branch hb b n h.1 he.1 hc i hi
    · exact branches hb bs _ h.2 he.2 hc i hi

theorem branch (hb : Backward ns P S) {close : Nat} : ∀ (b : List Item) (n : Nat),
    Branch.LiesAt ns close b n → Branch.Every P b → S close → ∀ i ∈ entry close b n, S i
  | [], _, _, _, hc => fun i hi => by rw [List.mem_singleton.1 hi]; exact hc
  | .anchor _ :: rest, n, h, he, hc => fun i hi => by
    rw [List.mem_singleton.1 hi]
    exact hb.of_onto h.1 (branch hb rest _ h.2 he.2 hc)
  | .atom a none :: rest, n, h, he, hc => fun i hi => by
    rw [List.mem_singleton.1 hi]
    exact atom hb a n h.1 he.2.1 (branch hb rest _ h.2 he.2.2 hc)
  | .atom a (some q) :: rest, n, h, he, hc => fun i hi => by
    have hf := branch hb rest _ h.2.2 he.2.2 hc
    rcases mem_entry_of_quantified hi with rfl | ⟨-, rfl⟩
    · exact hb.loop he.1 he.2.1 h.1 h.2.1 hf
    · exact hb.join h.2.1 hf

end

/-- The nodes of a quantifier have the property, and so have those to which its atom leads on. -/
theorem behind (hb : Backward ns P S) {n m : Nat} {following : List Nat} {q : Quantifier}
    (hq : q.LiesAt ns n m following) (hn : S n) (hf : ∀ i ∈ following, S i) :
    (∀ i ∈ q.onward n m, S i) ∧ ∀ v, m ≤ v → v < m + q.nodes → S v := by
  have hm : S m := hb.join hq hf
  have hpair : ∀ i ∈ [n, m], S i := by
    intro i hi
    rcases List.mem_pair.1 hi with rfl | rfl
    · exact hn
    · exact hm
  cases q with
  | optional =>
    refine ⟨fun i hi => ?_, fun v h1 h2 => ?_⟩
    · rw [List.mem_singleton.1 hi]; exact hm
    · rw [show v = m from Nat.le_antisymm (Nat.le_of_lt_succ h2) h1]; exact hm
  | star | plus =>
    refine ⟨hpair, fun v h1 h2 => ?_⟩
    rw [show v = m from Nat.le_antisymm (Nat.le_of_lt_succ h2) h1]; exact hm
  | counted b =>
    have hr : S (m + 1) := hb.of_onto hq.2 hpair
    refine ⟨fun i hi => ?_, fun v h1 h2 => ?_⟩
    · rw [List.mem_singleton.1 hi]; exact hr
    · rcases Nat.lt_or_ge m v with h | h
      · rw [show v = m + 1 from Nat.le_antisymm (Nat.le_of_lt_succ h2) h]; exact hr
      · rw [show v = m from Nat.le_antisymm h h1]; exact hm

mutual

theorem mem_atom (hb : Backward ns P S) {onward : List Nat} : ∀ (a : Atom) (n : Nat),
    a.LiesAt ns onward n → a.Every P → (∀ i ∈ onward, S i) → ∀ v, n ≤ v → v < a.after n → S v
  | .test _, n, h, _, ho, v, h1, h2 => by
    rw [show v = n from Nat.le_antisymm (Nat.le_of_lt_succ h2) h1]
    exact hb.of_onto h ho
  | .backref _, n, h, _, ho, v, h1, h2 => by
    rw [show v = n from Nat.le_antisymm (Nat.le_of_lt_succ h2) h1]
    exact hb.of_onto h ho
  | .group _ bs, n, h, he, ho, v, h1, h2 => by
    have hc : S (n + 1) := hb.of_onto h.2.1 ho
    rcases Nat.lt_or_ge v (n + 2) with hv | hv
    · rcases Nat.lt_or_ge n v with hv' | hv'
      · rw [show v = n + 1 by omega]; exact hc
      · rw [show v = n by omega]
        exact hb.of_onto h.1 (branches hb bs (n + 2) h.2.2 he hc)
    · exact mem_branches hb bs (n + 2) h.2.2 he hc v hv h2

theorem mem_branches (hb : Backward ns P S) {close : Nat} : ∀ (bs : List (List Item)) (n : Nat),
    Branches.LieAt ns close bs n → Branches.Every P bs → S close →
      ∀ v, n ≤ v → v < Branches.after bs n → S v
  | [], _, _, _, _, v, h1, h2 => absurd h2 (Nat.not_lt.2 h1)
  | b :: bs, n, h, he, hc, v, h1, h2 => by
    rcases Nat.lt_or_ge v (Branch.after b n) with hv | hv
    · exact mem_branch hb b n h.1 he.1 hc v h1 hv
    · exact mem_branches hb bs _ h.2 he.2 hc v hv h2

theorem mem_branch (hb : Backward ns P S) {close : Nat} : ∀ (b : List Item) (n : Nat),
    Branch.LiesAt ns close b n → Branch.Every P b → S close →
      ∀ v, n ≤ v → v < Branch.after b n → S v
  | [], _, _, _, _, v, h1, h2 => absurd h2 (Nat.not_lt.2 h1)
  | .anchor _ :: rest, n, h, he, hc, v, h1, h2 => by
    rcases Nat.lt_or_ge n v with hv | hv
    · exact mem_branch hb rest _ h.2 he.2 hc v hv h2
    · rw [show v = n from Nat.le_antisymm hv h1]
      exact hb.of_onto h.1 (branch hb rest _ h.2 he.2 hc)
  | .atom a none :: rest, n, h, he, hc, v, h1, h2 => by
    rcases Nat.lt_or_ge v (a.after n) with hv | hv
    · exact mem_atom hb a n h.1 he.2.1 (branch hb rest _ h.2 he.2.2 hc) v h1 hv
    · exact mem_branch hb rest _ h.2 he.2.2 hc v hv h2
  | .atom a (some q) :: rest, n, h, he, hc, v, h1, h2 => by
    have hf := branch hb rest _ h.2.2 he.2.2 hc
    obtain ⟨ho, hq⟩ := hb.behind h.2.1 (hb.loop he.1 he.2.1 h.1 h.2.1 hf) hf
    rcases Nat.lt_or_ge v (a.after n) with hv | hv
    · exact mem_atom hb a n h.1 he.2.1 ho v h1 hv
    · rcases Nat.lt_or_ge v (a.after n + q.nodes) with hv' | hv'
      · exact hq v hv hv'
      · exact mem_branch hb rest _ h.2.2 he.2.2 hc v hv' h2

end

/-- **All nodes of a pattern's graph have the property.** -/
theorem ofPattern {p : Pattern} (hb : Backward (Graph.ofPattern p).nodes P S)
    (hp : Branches.Every P p.branches) (v : Nat) : S v := by
  obtain ⟨ho, ht, hlies⟩ := liesAt_ofPattern p
  have hterm : S 1 := hb.of_onto ht (by simp [Node.onto])
  rcases v with _ | _ | v
  · exact hb.of_onto ho (hb.branches p.branches 2 hlies hp hterm)
  · exact hterm
  · rcases Nat.lt_or_ge (v + 2) (Branches.after p.branches 2) with hv | hv
    · exact hb.mem_branches p.branches 2 hlies hp hterm _ (Nat.le_add_left 2 v) hv
    · -- behind the last node there is none
      refine hb.onto fun nd hn => ?_
      have hlt := (Array.getElem?_eq_some_iff.1 hn).1
      rw [Graph.ofPattern, size_layoutBranches] at hlt
      exact absurd hv (Nat.not_le.2 hlt)

end Backward

end PatternGraph
