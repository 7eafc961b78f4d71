import Mathlib.Logic.Relation
import PatternGraph.Proofs.Graph.Bodies

/-!
# Which nodes can be come to

The edges of a part lead from where it is entered to all of its nodes, and from each of them on to
what follows. So no node of a pattern's graph is out of reach, and none is a dead end.

* `Edge`, `Reachable`: along one edge, along any number of them;
* `Spans`: the nodes of a part are between the ways into it and the node behind it;
* `reachable_atom`, **`spans_branches`**: all nodes of a part are;
* **`reachable_ofPattern`**: and those of a whole graph, between its two ends.
-/

namespace PatternGraph

/-- An edge of a graph. -/
def Edge (ns : Array Node) (v w : Nat) : Prop := ∃ nd, ns[v]? = some nd ∧ w ∈ nd.onto

/-- There is a walk from one node to the other. -/
abbrev Reachable (ns : Array Node) : Nat → Nat → Prop := Relation.ReflTransGen (Edge ns)

/-- The nodes from `low` on, below `high`, are reached by one of the ways in, and from each of them
the node `out` is reached. -/
structure Spans (ns : Array Node) (ways : List Nat) (out low high : Nat) : Prop where
  ne_nil : ways ≠ []
  through : ∀ i ∈ ways, Reachable ns i out
  inside : ∀ v, low ≤ v → v < high → (∃ i ∈ ways, Reachable ns i v) ∧ Reachable ns v out

section

variable {ns : Array Node}

theorem edge_of_node {v w : Nat} {nd : Node} (hn : ns[v]? = some nd) (hw : w ∈ nd.onto) :
    Edge ns v w := ⟨nd, hn, hw⟩

theorem reachable_of_node {v w : Nat} {nd : Node} (hn : ns[v]? = some nd) (hw : w ∈ nd.onto) :
    Reachable ns v w := .single (edge_of_node hn hw)

theorem Quantifier.reachable_join {n m : Nat} {following : List Nat} {q : Quantifier}
    (hq : q.LiesAt ns n m following) : ∃ i ∈ q.onward n m, Reachable ns i m := by
  cases q with
  | optional => exact ⟨m, List.mem_singleton_self m, .refl⟩
  | star | plus => exact ⟨m, List.mem_pair.2 (.inr rfl), .refl⟩
  | counted b =>
    exact ⟨m + 1, List.mem_singleton_self _, reachable_of_node hq.2 (List.mem_pair.2 (.inr rfl))⟩

theorem Quantifier.reachable {n m : Nat} {following : List Nat} {q : Quantifier}
    (hq : q.LiesAt ns n m following) (hn : ∀ i ∈ q.onward n m, Reachable ns n i) {v : Nat}
    (h1 : m ≤ v) (h2 : v < m + q.nodes) : Reachable ns n v ∧ Reachable ns v m := by
  obtain ⟨i, hi, him⟩ := q.reachable_join hq
  rcases Nat.eq_or_lt_of_le h1 with rfl | hv
  · exact ⟨(hn i hi).trans him, .refl⟩
  · cases q with
    | optional | star | plus => exact absurd h2 (Nat.not_lt.2 hv)
    | counted b =>
      obtain rfl : v = m + 1 := Nat.le_antisymm (Nat.le_of_lt_succ h2) hv
      exact ⟨hn _ (List.mem_singleton_self _), reachable_of_node hq.2 (List.mem_pair.2 (.inr rfl))⟩

theorem Quantifier.join_onto {n m : Nat} {following : List Nat} {q : Quantifier}
    (hq : q.LiesAt ns n m following) {i : Nat} (hi : i ∈ following) : Reachable ns m i := by
  cases q with
  | optional | star | plus => exact reachable_of_node hq hi
  | counted b => exact reachable_of_node hq.1 hi

theorem Spans.prepend {ways : List Nat} {out n mid high : Nat} (h : Spans ns ways out mid high)
    (hfirst : ∀ v, n ≤ v → v < mid → Reachable ns n v ∧ ∀ i ∈ ways, Reachable ns v i)
    (hlt : n < mid) : Spans ns [n] out n high := by
  obtain ⟨i, hi⟩ := List.exists_mem_of_ne_nil ways h.ne_nil
  have hout : ∀ v, n ≤ v → v < mid → Reachable ns v out := fun v h1 h2 =>
    ((hfirst v h1 h2).2 i hi).trans (h.through i hi)
  refine ⟨List.cons_ne_nil _ _, fun j hj => ?_, fun v h1 h2 => ?_⟩
  · rw [List.mem_singleton.1 hj]
    exact hout n (Nat.le_refl n) hlt
  · rcases Nat.lt_or_ge v mid with hv | hv
    · exact ⟨⟨n, List.mem_singleton_self n, (hfirst v h1 hv).1⟩, hout v h1 hv⟩
    · obtain ⟨⟨j, hj, hjv⟩, hv'⟩ := h.inside v hv h2
      exact ⟨⟨n, List.mem_singleton_self n, ((hfirst n (Nat.le_refl n) hlt).2 j hj).trans hjv⟩, hv'⟩

theorem Spans.enlarge {ways ways' : List Nat} {out low high : Nat} (h : Spans ns ways out low high)
    (hsub : ways ⊆ ways') (hthrough : ∀ i ∈ ways', Reachable ns i out) :
    Spans ns ways' out low high := by
  refine ⟨fun hnil => h.ne_nil (List.eq_nil_of_subset_nil (hnil ▸ hsub)), hthrough,
    fun v h1 h2 => ?_⟩
  obtain ⟨⟨i, hi, hiv⟩, hv⟩ := h.inside v h1 h2
  exact ⟨⟨i, hsub hi, hiv⟩, hv⟩

mutual

/-- **All nodes of an atom are reached from its first one, and lead onward.** -/
theorem reachable_atom {onward : List Nat} : ∀ (a : Atom) (n : Nat), a.LiesAt ns onward n →
    Item.Filled (.atom a none) → a.Every Item.Filled → ∀ v, n ≤ v → v < a.after n →
      Reachable ns n v ∧ ∀ i ∈ onward, Reachable ns v i
  | .test t, n, h, _, _, v, h1, h2 => by
    obtain rfl : v = n := Nat.le_antisymm (Nat.le_of_lt_succ h2) h1
    exact ⟨.refl, fun i hi => reachable_of_node h hi⟩
  | .backref k, n, h, _, _, v, h1, h2 => by
    obtain rfl : v = n := Nat.le_antisymm (Nat.le_of_lt_succ h2) h1
    exact ⟨.refl, fun i hi => reachable_of_node h hi⟩
  | .group k bs, n, h, hne, he, v, h1, h2 => by
    obtain ⟨ho, hc, hb⟩ := h
    have hspans := spans_branches bs (n + 2) hb hne he
    have hin : ∀ i ∈ heads (n + 1) bs (n + 2), Reachable ns n i := fun i hi =>
      reachable_of_node ho hi
    have hout : ∀ i ∈ onward, Reachable ns (n + 1) i := fun i hi => reachable_of_node hc hi
    have hclose : Reachable ns n (n + 1) := by
      obtain ⟨i, hi⟩ := List.exists_mem_of_ne_nil _ hspans.ne_nil
      exact (hin i hi).trans (hspans.through i hi)
    -- the node that opens the group, the one that closes it, and those between
    rcases Nat.lt_or_ge v (n + 2) with hv | hv
    · rcases Nat.eq_or_lt_of_le h1 with rfl | hv'
      · exact ⟨.refl, fun i hi => hclose.trans (hout i hi)⟩
      · obtain rfl : v = n + 1 := by omega
        exact ⟨hclose, hout⟩
    · obtain ⟨⟨j, hj, hjv⟩, hv'⟩ := hspans.inside v hv h2
      exact ⟨(hin j hj).trans hjv, fun i hi => hv'.trans (hout i hi)⟩

/-- **All nodes of branches are between the ways into them and the node that closes them.** -/
theorem spans_branches {close : Nat} : ∀ (bs : List (List Item)) (n : Nat),
    Branches.LieAt ns close bs n → bs ≠ [] → Branches.Every Item.Filled bs →
      Spans ns (heads close bs n) close n (Branches.after bs n)
  | [], _, _, hne, _ => absurd rfl hne
  | [b], n, h, _, he => by
    rw [heads_cons, heads_nil, List.append_nil]
    exact spans_branch b n h.1 he.1
  | b :: b' :: bs, n, h, _, he => by
    have hb := spans_branch b n h.1 he.1
    have hbs := spans_branches (b' :: bs) _ h.2 (List.cons_ne_nil _ _) he.2
    have hthrough : ∀ i ∈ heads close (b :: b' :: bs) n, Reachable ns i close := by
      intro i hi
      rw [heads_cons] at hi
      exact (List.mem_append.1 hi).elim (hb.through i) (hbs.through i)
    refine ⟨?_, hthrough, fun v h1 h2 => ?_⟩
    · rw [heads_cons]
      exact List.append_ne_nil_of_left_ne_nil hb.ne_nil _
    · rcases Nat.lt_or_ge v (Branch.after b n) with hv | hv
      · refine (hb.enlarge ?_ hthrough).inside v h1 hv
        rw [heads_cons]
        exact List.subset_append_left _ _
      · refine (hbs.enlarge ?_ hthrough).inside v hv h2
        rw [heads_cons close b]
        exact List.subset_append_right _ _

theorem spans_branch {close : Nat} : ∀ (b : List Item) (n : Nat), Branch.LiesAt ns close b n →
    Branch.Every Item.Filled b → Spans ns (entry close b n) close n (Branch.after b n)
  | [], n, _, _ =>
    ⟨List.cons_ne_nil _ _, fun i hi => by rw [List.mem_singleton.1 hi],
      fun v h1 h2 => absurd h2 (Nat.not_lt.2 h1)⟩
  | .anchor a :: rest, n, h, he => by
    refine (spans_branch rest (n + 1) h.2 he.2).prepend (fun v h1 h2 => ?_) (Nat.lt_succ_self n)
    obtain rfl : v = n := Nat.le_antisymm (Nat.le_of_lt_succ h2) h1
    exact ⟨.refl, fun i hi => reachable_of_node h.1 hi⟩
  | .atom a none :: rest, n, h, he =>
    (spans_branch rest _ h.2 he.2.2).prepend (reachable_atom a n h.1 he.1 he.2.1) (a.lt_after n)
  | .atom a (some q) :: rest, n, h, he => by
    obtain ⟨ha, hq, hr⟩ := h
    have hfilled : Item.Filled (.atom a none) := by cases a <;> exact he.1
    have hatom := reachable_atom a n ha hfilled he.2.1
    have hlt := a.lt_after n
    obtain ⟨i, hi, him⟩ := q.reachable_join hq
    -- the atom and its quantifier as one part, behind which the rest follows
    have hrow : ∀ v, n ≤ v → v < a.after n + q.nodes →
        Reachable ns n v ∧ Reachable ns v (a.after n) := by
      intro v h1 h2
      rcases Nat.lt_or_ge v (a.after n) with hv | hv
      · exact ⟨(hatom v h1 hv).1, ((hatom v h1 hv).2 i hi).trans him⟩
      · exact q.reachable hq (hatom n (Nat.le_refl n) hlt).2 hv h2
    have hrest := spans_branch rest _ hr he.2.2
    have hjoin : ∀ j ∈ entry close rest (a.after n + q.nodes), Reachable ns (a.after n) j :=
      fun j hj => q.join_onto hq hj
    have hspans : Spans ns [n] close n (Branch.after (.atom a (some q) :: rest) n) :=
      hrest.prepend (fun v h1 h2 =>
        ⟨(hrow v h1 h2).1, fun j hj => (hrow v h1 h2).2.trans (hjoin j hj)⟩) (by omega)
    refine hspans.enlarge ?_ fun j hj => ?_
    · intro j hj
      rw [List.mem_singleton.1 hj, entry]
      split <;> exact List.mem_cons_self
    · rcases mem_entry_of_quantified hj with rfl | ⟨-, rfl⟩
      · exact hspans.through j (List.mem_singleton_self j)
      · have hm : a.after n < Branch.after (.atom a (some q) :: rest) n :=
          Nat.lt_of_lt_of_le (Nat.lt_add_of_pos_right q.nodes_pos) (Branch.le_after rest _)
        exact (hspans.inside _ (Nat.le_of_lt hlt) hm).2

end

end

/-- **Every node of a graph can be come to from the start, and from every node the terminal.** -/
theorem reachable_ofPattern {p : Pattern} (hne : p.branches ≠ [])
    (hp : Branches.Every Item.Filled p.branches) {v : Nat} (hv : v < (Graph.ofPattern p).size) :
    Reachable (Graph.ofPattern p).nodes 0 v ∧ Reachable (Graph.ofPattern p).nodes v 1 := by
  obtain ⟨ho, -, hb⟩ := liesAt_ofPattern p
  have hspans := spans_branches p.branches 2 hb hne hp
  have hin : ∀ i ∈ heads 1 p.branches 2, Reachable (Graph.ofPattern p).nodes 0 i := fun i hi =>
    reachable_of_node ho hi
  have hend : Reachable (Graph.ofPattern p).nodes 0 1 := by
    obtain ⟨i, hi⟩ := List.exists_mem_of_ne_nil _ hspans.ne_nil
    exact (hin i hi).trans (hspans.through i hi)
  match v, hv with
  | 0, _ => exact ⟨.refl, hend⟩
  | 1, _ => exact ⟨hend, .refl⟩
  | v + 2, hv =>
    rw [Graph.size, Graph.ofPattern, size_layoutBranches] at hv
    obtain ⟨⟨i, hi, hiv⟩, hv'⟩ := hspans.inside (v + 2) (Nat.le_add_left 2 v) hv
    exact ⟨(hin i hi).trans hiv, hv'⟩

end PatternGraph
