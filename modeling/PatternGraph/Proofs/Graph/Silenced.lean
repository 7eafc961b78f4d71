import PatternGraph.Proofs.Graph.Inside

/-!
# Back references inside their own group

A back reference may stand inside the group whose text it asks for, at any depth, and one to the
whole match always does. Such a reference can be silenced: a class that no character belongs to is
put in its place. In the graph no node moves.

* `Branches.Around`: the groups that the node at an index lies inside of;
* **`mem_of_around`**: at a node inside a group that group is open;
* `Atom.Silenced`, `Branch.Silenced`, `Branches.Silenced`: the trees differ in nothing but silenced
  references, `Pattern.Silenced`: so do two patterns;
* `Node.Silenced`, **`silenced_ofPattern`**: and so do the nodes of their graphs.
-/

namespace PatternGraph

/-! ## The groups around a node -/

mutual

/-- The group `k` of an atom that begins at index `n` has the node at index `v` in its body. -/
def Atom.Around (k v : Nat) : Atom → Nat → Prop
  | .test _, _ => False
  | .backref _, _ => False
  | .group j branches, n =>
    j = k ∧ n + 2 ≤ v ∧ v < Branches.after branches (n + 2) ∨ Branches.Around k v branches (n + 2)

/-- The group `k` of branches that begin at index `n` has the node at index `v` in its body. -/
def Branches.Around (k v : Nat) : List (List Item) → Nat → Prop
  | [], _ => False
  | b :: bs, n => Branch.Around k v b n ∨ Branches.Around k v bs (Branch.after b n)

/-- The group `k` of a branch that begins at index `n` has the node at index `v` in its body. -/
def Branch.Around (k v : Nat) : List Item → Nat → Prop
  | [], _ => False
  | .anchor _ :: rest, n => Branch.Around k v rest (n + 1)
  | .atom a none :: rest, n => a.Around k v n ∨ Branch.Around k v rest (a.after n)
  | .atom a (some q) :: rest, n => a.Around k v n ∨ Branch.Around k v rest (a.after n + q.nodes)

end

section

variable {ns : Array Node} {k v : Nat}

mutual

theorem exists_around_atom {onward : List Nat} : ∀ (a : Atom) (n : Nat),
    a.LiesAt ns onward n → a.Around k v n → ∃ m next bs, n ≤ m ∧
      (Atom.group k bs).LiesAt ns next m ∧ m + 2 ≤ v ∧ v < Branches.after bs (m + 2)
  | .test _, _, _, hv => hv.elim
  | .backref _, _, _, hv => hv.elim
  | .group j bs, n, h, hv => by
    rcases hv with ⟨rfl, h1, h2⟩ | hv
    · exact ⟨n, onward, bs, Nat.le_refl n, h, h1, h2⟩
    · obtain ⟨m, next, bs', hm, h'⟩ := exists_around bs (n + 2) h.2.2 hv
      exact ⟨m, next, bs', Nat.le_of_add_right_le hm, h'⟩

theorem exists_around {close : Nat} : ∀ (bs : List (List Item)) (n : Nat),
    Branches.LieAt ns close bs n → Branches.Around k v bs n → ∃ m next bs, n ≤ m ∧
      (Atom.group k bs).LiesAt ns next m ∧ m + 2 ≤ v ∧ v < Branches.after bs (m + 2)
  | [], _, _, hv => hv.elim
  | b :: bs, n, h, hv => by
    rcases hv with hv | hv
    · exact exists_around_branch b n h.1 hv
    · obtain ⟨m, next, bs', hm, h'⟩ := exists_around bs _ h.2 hv
      exact ⟨m, next, bs', Nat.le_trans (Branch.le_after b n) hm, h'⟩

theorem exists_around_branch {close : Nat} : ∀ (b : List Item) (n : Nat),
    Branch.LiesAt ns close b n → Branch.Around k v b n → ∃ m next bs, n ≤ m ∧
      (Atom.group k bs).LiesAt ns next m ∧ m + 2 ≤ v ∧ v < Branches.after bs (m + 2)
  | [], _, _, hv => hv.elim
  | .anchor _ :: rest, n, h, hv => by
    obtain ⟨m, next, bs, hm, h'⟩ := exists_around_branch rest (n + 1) h.2 hv
    exact ⟨m, next, bs, Nat.le_of_succ_le hm, h'⟩
  | .atom a none :: rest, n, h, hv => by
    rcases hv with hv | hv
    · exact exists_around_atom a n h.1 hv
    · obtain ⟨m, next, bs, hm, h'⟩ := exists_around_branch rest _ h.2 hv
      exact ⟨m, next, bs, Nat.le_trans (a.le_after n) hm, h'⟩
  | .atom a (some q) :: rest, n, h, hv => by
    rcases hv with hv | hv
    · exact exists_around_atom a n h.1 hv
    · obtain ⟨m, next, bs, hm, h'⟩ := exists_around_branch rest _ h.2.2 hv
      exact ⟨m, next, bs, Nat.le_trans (a.le_after n) (Nat.le_of_add_right_le hm), h'⟩

end

end

/-- **At a node inside a group that group is open.** -/
theorem mem_of_around {p : Pattern} (hfilled : Branches.Every Item.Filled p.branches)
    (hne : p.branches ≠ [])
    (hone : ∀ {k u v : Nat} {next next' : List Nat},
      (Graph.ofPattern p).nodes[u]? = some ⟨.groupOpen k, next⟩ →
      (Graph.ofPattern p).nodes[v]? = some ⟨.groupOpen k, next'⟩ → u = v)
    {k v : Nat} (hk : Branches.Around k v p.branches 2) (hlt : v < (Graph.ofPattern p).size)
    {opened : List Nat} (hv : ∀ steps, Balanced (Graph.ofPattern p).nodes steps v opened) :
    k ∈ opened := by
  obtain ⟨n, next, bs, hle, h, h1, h2⟩ := exists_around p.branches 2 (liesAt_ofPattern p).2.2 hk
  have hreach := (reachable_ofPattern hne hfilled hlt).2
  exact mem_of_balanced h (fun ho => hone ho h.1) (Nat.lt_of_succ_le hle) hreach h1 h2 hv

/-! ## Silenced references -/

mutual

/-- The second atom is the first one with some of its references to the groups in `around`, and to
those that they stand inside of, silenced. -/
inductive Atom.Silenced : List Nat → Atom → Atom → Prop
  | test (around : List Nat) (t : CharTest) : Atom.Silenced around (.test t) (.test t)
  | backref (around : List Nat) (k : Nat) : Atom.Silenced around (.backref k) (.backref k)
  | own {around : List Nat} {k : Nat} {c : CharClass} : k ∈ around →
    (∀ x, c.accepts x = false) → Atom.Silenced around (.backref k) (.test (.oneOf c))
  | group {around : List Nat} (k : Nat) {bs bs' : List (List Item)} :
    Branches.Silenced (k :: around) bs bs' → Atom.Silenced around (.group k bs) (.group k bs')

/-- The second branches are the first ones with some references silenced, inside the groups in
`around`. -/
inductive Branches.Silenced : List Nat → List (List Item) → List (List Item) → Prop
  | nil (around : List Nat) : Branches.Silenced around [] []
  | cons {around : List Nat} {b b' : List Item} {bs bs' : List (List Item)} :
    Branch.Silenced around b b' → Branches.Silenced around bs bs' →
      Branches.Silenced around (b :: bs) (b' :: bs')

/-- The second branch is the first one with some references silenced, inside the groups in
`around`. -/
inductive Branch.Silenced : List Nat → List Item → List Item → Prop
  | nil (around : List Nat) : Branch.Silenced around [] []
  | anchor {around : List Nat} (x : Anchor) {rest rest' : List Item} :
    Branch.Silenced around rest rest' →
      Branch.Silenced around (.anchor x :: rest) (.anchor x :: rest')
  | atom {around : List Nat} {a a' : Atom} (q : Option Quantifier) {rest rest' : List Item} :
    Atom.Silenced around a a' → Branch.Silenced around rest rest' →
      Branch.Silenced around (.atom a q :: rest) (.atom a' q :: rest')

end

/-- The second pattern is the first one with some references silenced that stand inside the group
that they refer to. The whole match is around everything. -/
structure Pattern.Silenced (p p' : Pattern) : Prop where
  branches : Branches.Silenced [0] p.branches p'.branches
  groups : p'.groups = p.groups

section

variable {around : List Nat}

mutual

theorem Atom.Silenced.after_eq {around : List Nat} : ∀ {a a' : Atom}, a.Silenced around a' →
    ∀ n, a'.after n = a.after n
  | _, _, .test _ _, _ => rfl
  | _, _, .backref _ _, _ => rfl
  | _, _, .own _ _, _ => rfl
  | _, _, .group _ hbs, n => hbs.after_eq (n + 2)

theorem Branches.Silenced.after_eq {around : List Nat} : ∀ {bs bs' : List (List Item)},
    Branches.Silenced around bs bs' → ∀ n, Branches.after bs' n = Branches.after bs n
  | _, _, .nil _, _ => rfl
  | _, _, .cons hb hbs, n => by
    rw [Branches.after, Branches.after, hb.after_eq n, hbs.after_eq]

theorem Branch.Silenced.after_eq {around : List Nat} : ∀ {b b' : List Item},
    Branch.Silenced around b b' → ∀ n, Branch.after b' n = Branch.after b n
  | _, _, .nil _, _ => rfl
  | _, _, .anchor _ hrest, n => hrest.after_eq (n + 1)
  | _, _, .atom none ha hrest, n => by
    rw [Branch.after, Branch.after, ha.after_eq n, hrest.after_eq]
  | _, _, .atom (some q) ha hrest, n => by
    rw [Branch.after, Branch.after, ha.after_eq n, hrest.after_eq]

end

theorem entry_silenced {b b' : Branch} (h : Branch.Silenced around b b') (close n : Nat) :
    entry close b' n = entry close b n := by
  cases h with
  | nil | anchor => rfl
  | atom q ha _ =>
    cases q with
    | none => rfl
    | some q => rw [entry, entry, ha.after_eq]

theorem heads_silenced {bs bs' : Branches} (h : Branches.Silenced around bs bs') (close n : Nat) :
    heads close bs' n = heads close bs n := by
  induction bs generalizing bs' n with
  | nil =>
    cases h
    rfl
  | cons b bs ih =>
    cases h with
    | cons hb hbs => rw [heads_cons, heads_cons, entry_silenced hb, hb.after_eq, ih hbs]

end

/-! ## Nodes -/

/-- The second node is the first one, or that is a reference to one of the groups in `Own` and the
second one lets no character pass. -/
inductive Node.Silenced (Own : Nat → Prop) : Node → Node → Prop
  | same (nd : Node) : Silenced Own nd nd
  | own {k : Nat} {c : CharClass} (next : List Nat) : Own k → (∀ x, c.accepts x = false) →
    Silenced Own ⟨.backref k, next⟩ ⟨.test (.oneOf c), next⟩

section

variable {ns ns' : Array Node} {Own : Nat → Nat → Prop}

theorem Quantifier.beside_silenced {q : Quantifier} {n m : Nat} {following : List Nat}
    (h : q.LiesAt ns n m following) (h' : q.LiesAt ns' n m following) :
    Beside (fun v => Node.Silenced (Own · v)) ns ns' m (m + q.nodes) := by
  cases q with
  | counted b => exact (Beside.single h.1 h'.1 (.same _)).append (.single h.2 h'.2 (.same _))
  | _ => exact .single h h' (.same _)

mutual

theorem Atom.Silenced.beside : ∀ {around : List Nat} {a a' : Atom}, a.Silenced around a' →
    ∀ {n : Nat} {onward : List Nat}, a.LiesAt ns onward n → a'.LiesAt ns' onward n →
      (∀ v, n ≤ v → v < a.after n → ∀ k, k ∈ around ∨ a.Around k v n → Own k v) →
      Beside (fun v => Node.Silenced (Own · v)) ns ns' n (a.after n)
  | _, _, _, .test _ _, _, _, h, h', _ => .single h h' (.same _)
  | _, _, _, .backref _ _, _, _, h, h', _ => .single h h' (.same _)
  | _, _, _, .own hk hc, n, _, h, h', hown =>
    .single h h' (.own _ (hown n (Nat.le_refl n) (Nat.lt_succ_self n) _ (.inl hk)) hc)
  | _, _, _, .group k hbs, n, onward, h, h', hown => by
    obtain ⟨ho, hc, hb⟩ := h
    obtain ⟨ho', hc', hb'⟩ := h'
    rw [heads_silenced hbs] at ho'
    refine ((Beside.single ho ho' (.same _)).append (.single hc hc' (.same _))).append
      (hbs.beside hb hb' fun v h1 h2 j hj =>
        hown v (Nat.le_of_succ_le (Nat.le_of_succ_le h1)) h2 j ?_)
    rcases hj with hj | hj
    · rcases List.mem_cons.1 hj with rfl | hj
      · exact .inr (.inl ⟨rfl, h1, h2⟩)
      · exact .inl hj
    · exact .inr (.inr hj)

/-- **The nodes of branches and those of the silenced ones.** -/
theorem Branches.Silenced.beside : ∀ {around : List Nat} {bs bs' : List (List Item)},
    Branches.Silenced around bs bs' → ∀ {close n : Nat}, Branches.LieAt ns close bs n →
      Branches.LieAt ns' close bs' n →
      (∀ v, n ≤ v → v < Branches.after bs n → ∀ k, k ∈ around ∨ Branches.Around k v bs n →
        Own k v) →
      Beside (fun v => Node.Silenced (Own · v)) ns ns' n (Branches.after bs n)
  | _, _, _, .nil _, _, n, _, _, _ => .empty ns ns' n
  | _, _, _, @Branches.Silenced.cons _ b _ bs _ hb hbs, _, n, h, h', hown =>
    (hb.beside h.1 h'.1 fun v h1 h2 k hk =>
      hown v h1 (Nat.lt_of_lt_of_le h2 (Branches.le_after bs _)) k (hk.imp_right .inl)).append
      (hbs.beside h.2 (hb.after_eq n ▸ h'.2) fun v h1 h2 k hk =>
        hown v (Nat.le_trans (Branch.le_after b n) h1) h2 k (hk.imp_right .inr))

theorem Branch.Silenced.beside : ∀ {around : List Nat} {b b' : List Item},
    Branch.Silenced around b b' → ∀ {close n : Nat}, Branch.LiesAt ns close b n →
      Branch.LiesAt ns' close b' n →
      (∀ v, n ≤ v → v < Branch.after b n → ∀ k, k ∈ around ∨ Branch.Around k v b n → Own k v) →
      Beside (fun v => Node.Silenced (Own · v)) ns ns' n (Branch.after b n)
  | _, _, _, .nil _, _, n, _, _, _ => .empty ns ns' n
  | _, _, _, .anchor x hrest, close, n, h, h', hown => by
    obtain ⟨hx, hr⟩ := h
    obtain ⟨hx', hr'⟩ := h'
    rw [entry_silenced hrest] at hx'
    exact (Beside.single hx hx' (.same _)).append (hrest.beside hr hr' fun v h1 =>
      hown v (Nat.le_of_succ_le h1))
  | _, _, _, @Branch.Silenced.atom _ a _ none rest _ ha hrest, close, n, h, h', hown => by
    rw [Branch.LiesAt, ha.after_eq, entry_silenced hrest] at h'
    refine (ha.beside h.1 h'.1 fun v h1 h2 k hk => ?_).append
      (hrest.beside h.2 h'.2 fun v h1 h2 k hk => ?_)
    · exact hown v h1 (Nat.lt_of_lt_of_le h2 (Branch.le_after rest _)) k (hk.imp_right .inl)
    · exact hown v (Nat.le_trans (a.le_after n) h1) h2 k (hk.imp_right .inr)
  | _, _, _, @Branch.Silenced.atom _ a _ (some q) rest _ ha hrest, close, n, h, h', hown => by
    rw [Branch.LiesAt, ha.after_eq, entry_silenced hrest] at h'
    have hle : a.after n ≤ Branch.after rest (a.after n + q.nodes) :=
      Nat.le_trans (Nat.le_add_right _ _) (Branch.le_after rest _)
    refine ((ha.beside h.1 h'.1 fun v h1 h2 k hk => ?_).append
      (Quantifier.beside_silenced h.2.1 h'.2.1)).append
      (hrest.beside h.2.2 h'.2.2 fun v h1 h2 k hk => ?_)
    · exact hown v h1 (Nat.lt_of_lt_of_le h2 hle) k (hk.imp_right .inl)
    · exact hown v (Nat.le_trans (a.le_after n) (Nat.le_of_add_right_le h1)) h2 k
        (hk.imp_right .inr)

end

end

/-- **The graph of a silenced pattern has all its nodes where they were.** They are the same, but
for references to the whole match and to groups that they lie inside of. -/
theorem silenced_ofPattern {p p' : Pattern} (h : p.Silenced p') :
    (Graph.ofPattern p').size = (Graph.ofPattern p).size ∧
    ∀ (v : Nat) (nd : Node), (Graph.ofPattern p).nodes[v]? = some nd →
      ∃ nd', (Graph.ofPattern p').nodes[v]? = some nd' ∧
        nd.Silenced (fun k => k = 0 ∨ Branches.Around k v p.branches 2) nd' := by
  obtain ⟨ho, ht, hl⟩ := liesAt_ofPattern p
  obtain ⟨ho', ht', hl'⟩ := liesAt_ofPattern p'
  have hsize : (Graph.ofPattern p).nodes.size = Branches.after p.branches 2 :=
    size_layoutBranches 1 p.branches _
  have hsize' : (Graph.ofPattern p').nodes.size = Branches.after p'.branches 2 :=
    size_layoutBranches 1 p'.branches _
  rw [heads_silenced h.branches] at ho'
  have hall : Beside (fun v => Node.Silenced fun k => k = 0 ∨ Branches.Around k v p.branches 2)
      (Graph.ofPattern p).nodes (Graph.ofPattern p').nodes 0 (Branches.after p.branches 2) :=
    ((Beside.single ho ho' (.same _)).append (.single ht ht' (.same _))).append
      (h.branches.beside hl hl' fun v _ _ k hk => hk.imp_left List.mem_singleton.1)
  refine ⟨?_, fun v nd hn => hall v nd (Nat.zero_le v) ?_ hn⟩
  · rw [Graph.size, Graph.size, hsize, hsize', h.branches.after_eq]
  · exact hsize ▸ (Array.getElem?_eq_some_iff.1 hn).1

end PatternGraph
