import PatternGraph.Proofs.Graph.Placement

/-!
# The graph of a pattern with looser bounds

Bounds are loosened by taking the lower one down and the upper one up, or away. A pattern is
loosened by doing so for some of its counted quantifiers, wherever they stand. In its graph no node
moves: a repetition counts within the looser bounds, and a node in front of an atom that may now be
passed over has one more successor.

* `Bounds.Looser`, `Quantifier.Looser`;
* `Atom.Loosened`, `Branch.Loosened`, `Branches.Loosened`: the trees differ in nothing else;
* `Node.Looser`: what may be done at a node may still be done;
* `Loosens`: it is so at all nodes of a part, **`Branches.Loosened.loosens`**;
* **`looser_ofPattern`**: it is so at all nodes of a graph.
-/

namespace PatternGraph

/-! ## Bounds and quantifiers -/

/-- The second bounds allow whatever the first ones do: the lower bound has not gone up, and if
there still is an upper one, it has not gone down. -/
structure Bounds.Looser (b b' : Bounds) : Prop where
  min : b'.min ≤ b.min
  max : ∀ high' ∈ b'.max, ∃ high ∈ b.max, high ≤ high'

/-- The second quantifier is the first one, or its bounds have been loosened. -/
inductive Quantifier.Looser : Quantifier → Quantifier → Prop
  | same (q : Quantifier) : Looser q q
  | counted {b b' : Bounds} : b.Looser b' → Looser (.counted b) (.counted b')

section

variable {q q' : Quantifier}

theorem Quantifier.Looser.nodes_eq (h : q.Looser q') : q'.nodes = q.nodes := by
  cases h <;> rfl

theorem Quantifier.Looser.onward_eq (h : q.Looser q') (n m : Nat) :
    q'.onward n m = q.onward n m := by
  cases h <;> rfl

theorem Quantifier.Looser.skips (h : q.Looser q') (hs : q.skips) : q'.skips := by
  cases h with
  | same => exact hs
  | @counted b b' hb =>
    have hmin : b.min = 0 := beq_iff_eq.1 hs
    exact beq_iff_eq.2 (Nat.le_zero.1 (hmin ▸ hb.min))

end

/-! ## Trees -/

mutual

/-- The second atom is the first one with some of its bounds loosened. -/
inductive Atom.Loosened : Atom → Atom → Prop
  | test (t : CharTest) : Atom.Loosened (.test t) (.test t)
  | backref (k : Nat) : Atom.Loosened (.backref k) (.backref k)
  | group (k : Nat) {bs bs' : List (List Item)} :
    Branches.Loosened bs bs' → Atom.Loosened (.group k bs) (.group k bs')

/-- The second branches are the first ones with some of their bounds loosened. -/
inductive Branches.Loosened : List (List Item) → List (List Item) → Prop
  | nil : Branches.Loosened [] []
  | cons {b b' : List Item} {bs bs' : List (List Item)} :
    Branch.Loosened b b' → Branches.Loosened bs bs' → Branches.Loosened (b :: bs) (b' :: bs')

/-- The second branch is the first one with some of its bounds loosened. -/
inductive Branch.Loosened : List Item → List Item → Prop
  | nil : Branch.Loosened [] []
  | anchor (x : Anchor) {rest rest' : List Item} :
    Branch.Loosened rest rest' → Branch.Loosened (.anchor x :: rest) (.anchor x :: rest')
  | atom {a a' : Atom} {rest rest' : List Item} :
    Atom.Loosened a a' → Branch.Loosened rest rest' →
      Branch.Loosened (.atom a none :: rest) (.atom a' none :: rest')
  | quantified {a a' : Atom} {q q' : Quantifier} {rest rest' : List Item} :
    Atom.Loosened a a' → q.Looser q' → Branch.Loosened rest rest' →
      Branch.Loosened (.atom a (some q) :: rest) (.atom a' (some q') :: rest')

end

mutual

theorem Atom.Loosened.after_eq : ∀ {a a' : Atom}, a.Loosened a' → ∀ n, a'.after n = a.after n
  | _, _, .test _, _ => rfl
  | _, _, .backref _, _ => rfl
  | _, _, .group _ hbs, n => hbs.after_eq (n + 2)

theorem Branches.Loosened.after_eq : ∀ {bs bs' : List (List Item)}, Branches.Loosened bs bs' →
    ∀ n, Branches.after bs' n = Branches.after bs n
  | _, _, .nil, _ => rfl
  | _, _, .cons hb hbs, n => by
    rw [Branches.after, Branches.after, hb.after_eq n, hbs.after_eq]

theorem Branch.Loosened.after_eq : ∀ {b b' : List Item}, Branch.Loosened b b' →
    ∀ n, Branch.after b' n = Branch.after b n
  | _, _, .nil, _ => rfl
  | _, _, .anchor _ hrest, n => hrest.after_eq (n + 1)
  | _, _, .atom ha hrest, n => by
    rw [Branch.after, Branch.after, ha.after_eq n, hrest.after_eq]
  | _, _, .quantified ha hq hrest, n => by
    rw [Branch.after, Branch.after, ha.after_eq n, hq.nodes_eq, hrest.after_eq]

end

/-! ## Nodes -/

/-- What happens at a node is the same, or is counted within looser bounds. -/
inductive NodeKind.Looser : NodeKind → NodeKind → Prop
  | same (kind : NodeKind) : Looser kind kind
  | repetition {b b' : Bounds} (exit : Nat) :
    b.Looser b' → Looser (.repetition b exit) (.repetition b' exit)

/-- What may be done at the first node may be done at the second one. -/
structure Node.Looser (nd nd' : Node) : Prop where
  kind : nd.kind.Looser nd'.kind
  next : nd.next ⊆ nd'.next

theorem Node.looser_of_subset (kind : NodeKind) {next next' : List Nat} (h : next ⊆ next') :
    (⟨kind, next⟩ : Node).Looser ⟨kind, next'⟩ := ⟨.same kind, h⟩

/-- What may be done at the nodes of `ns` from `low` on, below `high`, may be done at those of
`ns'`. -/
def Loosens (ns ns' : Array Node) (low high : Nat) : Prop :=
  ∀ (v : Nat) (nd : Node), low ≤ v → v < high → ns[v]? = some nd →
    ∃ nd', ns'[v]? = some nd' ∧ nd.Looser nd'

section

variable {ns ns' : Array Node} {low mid high : Nat}

theorem Loosens.empty (ns ns' : Array Node) (n : Nat) : Loosens ns ns' n n := Beside.empty ns ns' n

theorem Loosens.single {v : Nat} {nd nd' : Node} (hn : ns[v]? = some nd) (hn' : ns'[v]? = some nd')
    (h : nd.Looser nd') : Loosens ns ns' v (v + 1) := Beside.single hn hn' h

theorem Loosens.append (h : Loosens ns ns' low mid) (h' : Loosens ns ns' mid high) :
    Loosens ns ns' low high := Beside.append h h'

end

/-! ## The ways into branches -/

theorem entry_subset {b b' : Branch} (h : Branch.Loosened b b') (close n : Nat) :
    entry close b n ⊆ entry close b' n := by
  cases h with
  | nil | anchor | atom => exact List.Subset.refl _
  | quantified ha hq hrest =>
    intro w hw
    rw [entry, ha.after_eq]
    rcases mem_entry_of_quantified hw with rfl | ⟨hs, rfl⟩
    · split <;> exact List.mem_cons_self
    · rw [if_pos (hq.skips hs)]
      exact List.mem_pair.2 (.inr rfl)

theorem heads_subset {bs bs' : Branches} (h : Branches.Loosened bs bs') (close n : Nat) :
    heads close bs n ⊆ heads close bs' n := by
  induction bs generalizing bs' n with
  | nil =>
    cases h
    exact List.Subset.refl _
  | cons b bs ih =>
    cases h with
    | cons hb hbs =>
      rw [heads_cons, heads_cons, hb.after_eq]
      exact List.append_subset.2 ⟨List.subset_append_of_subset_left _ (entry_subset hb close n),
        List.subset_append_of_subset_right _ (ih hbs _)⟩

/-! ## Parts -/

section

variable {ns ns' : Array Node}

theorem Quantifier.Looser.loosens {q q' : Quantifier} (h : q.Looser q') {n m : Nat}
    {following following' : List Nat} (hf : following ⊆ following')
    (hl : q.LiesAt ns n m following) (hl' : q'.LiesAt ns' n m following') :
    Loosens ns ns' m (m + q.nodes) := by
  have hjoin := Node.looser_of_subset .join hf
  cases h with
  | same =>
    cases q with
    | counted b =>
      exact (Loosens.single hl.1 hl'.1 hjoin).append
        (.single hl.2 hl'.2 (Node.looser_of_subset _ (List.Subset.refl _)))
    | _ => exact .single hl hl' hjoin
  | counted hb =>
    exact (Loosens.single hl.1 hl'.1 hjoin).append
      (.single hl.2 hl'.2 ⟨.repetition m hb, List.Subset.refl _⟩)

mutual

theorem Atom.Loosened.loosens : ∀ {a a' : Atom}, a.Loosened a' → ∀ {n : Nat}
    {onward onward' : List Nat}, onward ⊆ onward' → a.LiesAt ns onward n →
      a'.LiesAt ns' onward' n → Loosens ns ns' n (a.after n)
  | _, _, .test _, _, _, _, ho, h, h' => .single h h' (Node.looser_of_subset _ ho)
  | _, _, .backref _, _, _, _, ho, h, h' => .single h h' (Node.looser_of_subset _ ho)
  | _, _, .group _ hbs, _, _, _, ho, h, h' =>
    ((Loosens.single h.1 h'.1 (Node.looser_of_subset _ (heads_subset hbs _ _))).append
      (.single h.2.1 h'.2.1 (Node.looser_of_subset _ ho))).append (hbs.loosens h.2.2 h'.2.2)

/-- **What may be done at the nodes of branches may be done with looser bounds.** -/
theorem Branches.Loosened.loosens : ∀ {bs bs' : List (List Item)}, Branches.Loosened bs bs' →
    ∀ {close n : Nat}, Branches.LieAt ns close bs n → Branches.LieAt ns' close bs' n →
      Loosens ns ns' n (Branches.after bs n)
  | _, _, .nil, _, n, _, _ => .empty ns ns' n
  | _, _, .cons hb hbs, _, n, h, h' =>
    (hb.loosens h.1 h'.1).append (hbs.loosens h.2 (hb.after_eq n ▸ h'.2))

theorem Branch.Loosened.loosens : ∀ {b b' : List Item}, Branch.Loosened b b' →
    ∀ {close n : Nat}, Branch.LiesAt ns close b n → Branch.LiesAt ns' close b' n →
      Loosens ns ns' n (Branch.after b n)
  | _, _, .nil, _, n, _, _ => .empty ns ns' n
  | _, _, .anchor _ hrest, _, _, h, h' =>
    (Loosens.single h.1 h'.1 (Node.looser_of_subset _ (entry_subset hrest _ _))).append
      (hrest.loosens h.2 h'.2)
  | _, _, .atom ha hrest, close, n, h, h' => by
    rw [Branch.LiesAt, ha.after_eq] at h'
    exact (ha.loosens (entry_subset hrest close _) h.1 h'.1).append (hrest.loosens h.2 h'.2)
  | _, _, .quantified ha hq hrest, close, n, h, h' => by
    rw [Branch.LiesAt, ha.after_eq, hq.nodes_eq, hq.onward_eq] at h'
    obtain ⟨hla, hlq, hlrest⟩ := h
    obtain ⟨hla', hlq', hlrest'⟩ := h'
    have hbody := ha.loosens (List.Subset.refl _) hla hla'
    have hjoin := hq.loosens (entry_subset hrest close _) hlq hlq'
    exact (hbody.append hjoin).append (hrest.loosens hlrest hlrest')

end

end

/-! ## Whole patterns -/

/-- What may be done at a node of `g` may be done at that of `g'`. -/
structure Graph.Looser (g g' : Graph) : Prop where
  start : g'.start = g.start
  terminal : g'.terminal = g.terminal
  nodes : ∀ (v : Nat) (nd : Node), g.nodes[v]? = some nd → ∃ nd', g'.nodes[v]? = some nd' ∧
    nd.Looser nd'

/-- **With looser bounds a graph has all its nodes, where they were.** -/
theorem looser_ofPattern {p p' : Pattern} (h : Branches.Loosened p.branches p'.branches) :
    (Graph.ofPattern p).Looser (Graph.ofPattern p') := by
  obtain ⟨ho, ht, hl⟩ := liesAt_ofPattern p
  obtain ⟨ho', ht', hl'⟩ := liesAt_ofPattern p'
  have hends := (Loosens.single ho ho' (Node.looser_of_subset _ (heads_subset h 1 2))).append
    (.single ht ht' (Node.looser_of_subset _ (List.Subset.refl _)))
  have hall := hends.append (h.loosens hl hl')
  refine ⟨rfl, rfl, fun v nd hn => hall v nd (Nat.zero_le v) ?_ hn⟩
  have hsize : (Graph.ofPattern p).nodes.size = Branches.after p.branches 2 :=
    size_layoutBranches 1 p.branches _
  exact hsize ▸ (Array.getElem?_eq_some_iff.1 hn).1

end PatternGraph
