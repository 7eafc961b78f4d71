import PatternGraph.Proofs.Graph.Nesting

/-!
# Groups inside groups

The only way to a node inside a group is by the node that opens the group, and the only way out by
the one that closes it. So wherever a group is opened, the groups that it is inside of are open.

* `Branches.Inside`: a group is inside another in the tree of a pattern;
* `exists_groupOpen`: the node of a group lies with those of its part;
* `mem_of_balanced`: between the two nodes of a group that group is open;
* **`mem_of_inside`**: where a group is opened, the groups around it are open.
-/

namespace PatternGraph

/-! ## Groups in a tree -/

mutual

/-- In the atom the group `j` is inside the group `i`. -/
def Atom.Inside (j i : Nat) : Atom → Prop
  | .test _ => False
  | .backref _ => False
  | .group k branches => k = i ∧ j ∈ Branches.numbers branches ∨ Branches.Inside j i branches

/-- In the branches the group `j` is inside the group `i`. -/
def Branches.Inside (j i : Nat) : List (List Item) → Prop
  | [] => False
  | b :: bs => Branch.Inside j i b ∨ Branches.Inside j i bs

/-- In the branch the group `j` is inside the group `i`. -/
def Branch.Inside (j i : Nat) : List Item → Prop
  | [] => False
  | .anchor _ :: rest => Branch.Inside j i rest
  | .atom a _ :: rest => a.Inside j i ∨ Branch.Inside j i rest

end

section

variable {ns : Array Node} {i j : Nat}

/-! ## Where the nodes of a group lie -/

mutual

theorem exists_groupOpen_atom {onward : List Nat} : ∀ (a : Atom) (n : Nat),
    a.LiesAt ns onward n → j ∈ a.numbers →
      ∃ v next, n ≤ v ∧ v < a.after n ∧ ns[v]? = some ⟨.groupOpen j, next⟩
  | .test _, _, _, hj => absurd hj List.not_mem_nil
  | .backref _, _, _, hj => absurd hj List.not_mem_nil
  | .group k bs, n, h, hj => by
    rcases List.mem_cons.1 hj with rfl | hj
    · exact ⟨n, _, Nat.le_refl n, Atom.lt_after _ n, h.1⟩
    · obtain ⟨v, next, h1, h2, hv⟩ := exists_groupOpen bs (n + 2) h.2.2 hj
      exact ⟨v, next, Nat.le_of_add_right_le h1, h2, hv⟩

/-- **The node that opens a group of branches lies with their nodes.** -/
theorem exists_groupOpen {close : Nat} : ∀ (bs : List (List Item)) (n : Nat),
    Branches.LieAt ns close bs n → j ∈ Branches.numbers bs →
      ∃ v next, n ≤ v ∧ v < Branches.after bs n ∧ ns[v]? = some ⟨.groupOpen j, next⟩
  | [], _, _, hj => absurd hj List.not_mem_nil
  | b :: bs, n, h, hj => by
    rcases List.mem_append.1 hj with hj | hj
    · obtain ⟨v, next, h1, h2, hv⟩ := exists_groupOpen_branch b n h.1 hj
      exact ⟨v, next, h1, Nat.lt_of_lt_of_le h2 (Branches.le_after bs _), hv⟩
    · obtain ⟨v, next, h1, h2, hv⟩ := exists_groupOpen bs _ h.2 hj
      exact ⟨v, next, Nat.le_trans (Branch.le_after b n) h1, h2, hv⟩

theorem exists_groupOpen_branch {close : Nat} : ∀ (b : List Item) (n : Nat),
    Branch.LiesAt ns close b n → j ∈ Branch.numbers b →
      ∃ v next, n ≤ v ∧ v < Branch.after b n ∧ ns[v]? = some ⟨.groupOpen j, next⟩
  | [], _, _, hj => absurd hj List.not_mem_nil
  | .anchor _ :: rest, n, h, hj => by
    obtain ⟨v, next, h1, h2, hv⟩ := exists_groupOpen_branch rest (n + 1) h.2 hj
    exact ⟨v, next, Nat.le_of_succ_le h1, h2, hv⟩
  | .atom a none :: rest, n, h, hj => by
    rcases List.mem_append.1 hj with hj | hj
    · obtain ⟨v, next, h1, h2, hv⟩ := exists_groupOpen_atom a n h.1 hj
      exact ⟨v, next, h1, Nat.lt_of_lt_of_le h2 (Branch.le_after rest _), hv⟩
    · obtain ⟨v, next, h1, h2, hv⟩ := exists_groupOpen_branch rest _ h.2 hj
      exact ⟨v, next, Nat.le_trans (a.le_after n) h1, h2, hv⟩
  | .atom a (some q) :: rest, n, h, hj => by
    have hle : a.after n ≤ Branch.after rest (a.after n + q.nodes) :=
      Nat.le_trans (Nat.le_add_right _ _) (Branch.le_after rest _)
    rcases List.mem_append.1 hj with hj | hj
    · obtain ⟨v, next, h1, h2, hv⟩ := exists_groupOpen_atom a n h.1 hj
      exact ⟨v, next, h1, Nat.lt_of_lt_of_le h2 hle, hv⟩
    · obtain ⟨v, next, h1, h2, hv⟩ := exists_groupOpen_branch rest _ h.2.2 hj
      exact ⟨v, next, Nat.le_trans (a.le_after n) (Nat.le_of_add_right_le h1), h2, hv⟩

end

mutual

theorem exists_liesAt_atom {onward : List Nat} : ∀ (a : Atom) (n : Nat),
    a.LiesAt ns onward n → a.Inside j i →
      ∃ m next bs, n ≤ m ∧ (Atom.group i bs).LiesAt ns next m ∧ j ∈ Branches.numbers bs
  | .test _, _, _, hj => hj.elim
  | .backref _, _, _, hj => hj.elim
  | .group k bs, n, h, hj => by
    rcases hj with ⟨rfl, hj⟩ | hj
    · exact ⟨n, onward, bs, Nat.le_refl n, h, hj⟩
    · obtain ⟨m, next, bs', hm, h'⟩ := exists_liesAt bs (n + 2) h.2.2 hj
      exact ⟨m, next, bs', Nat.le_of_add_right_le hm, h'⟩

theorem exists_liesAt {close : Nat} : ∀ (bs : List (List Item)) (n : Nat),
    Branches.LieAt ns close bs n → Branches.Inside j i bs →
      ∃ m next bs, n ≤ m ∧ (Atom.group i bs).LiesAt ns next m ∧ j ∈ Branches.numbers bs
  | [], _, _, hj => hj.elim
  | b :: bs, n, h, hj => by
    rcases hj with hj | hj
    · exact exists_liesAt_branch b n h.1 hj
    · obtain ⟨m, next, bs', hm, h'⟩ := exists_liesAt bs _ h.2 hj
      exact ⟨m, next, bs', Nat.le_trans (Branch.le_after b n) hm, h'⟩

theorem exists_liesAt_branch {close : Nat} : ∀ (b : List Item) (n : Nat),
    Branch.LiesAt ns close b n → Branch.Inside j i b →
      ∃ m next bs, n ≤ m ∧ (Atom.group i bs).LiesAt ns next m ∧ j ∈ Branches.numbers bs
  | [], _, _, hj => hj.elim
  | .anchor _ :: rest, n, h, hj => by
    obtain ⟨m, next, bs, hm, h'⟩ := exists_liesAt_branch rest (n + 1) h.2 hj
    exact ⟨m, next, bs, Nat.le_of_succ_le hm, h'⟩
  | .atom a none :: rest, n, h, hj => by
    rcases hj with hj | hj
    · exact exists_liesAt_atom a n h.1 hj
    · obtain ⟨m, next, bs, hm, h'⟩ := exists_liesAt_branch rest _ h.2 hj
      exact ⟨m, next, bs, Nat.le_trans (a.le_after n) hm, h'⟩
  | .atom a (some q) :: rest, n, h, hj => by
    rcases hj with hj | hj
    · exact exists_liesAt_atom a n h.1 hj
    · obtain ⟨m, next, bs, hm, h'⟩ := exists_liesAt_branch rest _ h.2.2 hj
      exact ⟨m, next, bs, Nat.le_trans (a.le_after n) (Nat.le_of_add_right_le hm), h'⟩

end

/-! ## What is open inside a group -/

theorem NodeKind.mem_of_nest {kind : NodeKind} {opened after : List Nat}
    (ha : kind.nest opened = some after) (hi : i ∈ after) (hk : kind ≠ .groupOpen i) :
    i ∈ opened := by
  cases kind with
  | groupOpen k =>
    cases ha
    rcases List.mem_cons.1 hi with rfl | hi
    · exact absurd rfl hk
    · exact hi
  | groupClose k =>
    cases opened with
    | nil => simp [nest] at ha
    | cons x opened =>
      simp only [nest, Option.ite_none_right_eq_some, Option.some.injEq] at ha
      obtain ⟨-, rfl⟩ := ha
      exact List.mem_cons_of_mem x hi
  | terminal =>
    simp only [nest, Option.ite_none_right_eq_some, Option.some.injEq] at ha
    obtain ⟨-, rfl⟩ := ha
    exact absurd hi List.not_mem_nil
  | test t | join | backref k | repetition b e | anchor x =>
    cases ha
    exact hi

/-- **Between the two nodes of a group that group is open.** -/
theorem mem_of_balanced {n v out : Nat} {bs : Branches} {next opened : List Nat}
    (h : (Atom.group i bs).LiesAt ns next n)
    (hone : ∀ {v : Nat} {next : List Nat}, ns[v]? = some ⟨.groupOpen i, next⟩ → v = n)
    (hout : out < n) (hreach : Reachable ns v out) (h1 : n + 2 ≤ v)
    (h2 : v < Branches.after bs (n + 2)) (hv : ∀ steps, Balanced ns steps v opened) :
    i ∈ opened := by
  obtain ⟨-, hclose, hbody⟩ := h
  -- the way out goes by the node that closes the group, and there it has to be open
  induction hreach using Relation.ReflTransGen.head_induction_on generalizing opened with
  | refl => omega
  | @head v w hvw _ ih =>
    obtain ⟨nd, hn, hw⟩ := hvw
    obtain ⟨after, ha, honto⟩ := exists_nest hv hn
    have hmem : i ∈ after := by
      rcases onto_branches hn hw bs (n + 2) hbody h1 h2 with rfl | ⟨h1', h2'⟩
      · obtain ⟨rest, hrest, -⟩ := exists_nest (honto _ hw) hclose
        cases after with
        | nil => cases hrest
        | cons k after =>
          simp only [NodeKind.nest, Option.ite_none_right_eq_some] at hrest
          rw [hrest.1]
          exact List.mem_cons_self
      · exact ih h1' h2' (honto w hw)
    refine NodeKind.mem_of_nest ha hmem fun hk => ?_
    obtain ⟨kind, next⟩ := nd
    obtain rfl : kind = .groupOpen i := hk
    have hvn := hone hn
    omega

end

/-- **Where a group is opened, the groups that it is inside of are open.** -/
theorem mem_of_inside {p : Pattern} (hfilled : Branches.Every Item.Filled p.branches)
    (hne : p.branches ≠ [])
    (hone : ∀ {k u v : Nat} {next next' : List Nat},
      (Graph.ofPattern p).nodes[u]? = some ⟨.groupOpen k, next⟩ →
      (Graph.ofPattern p).nodes[v]? = some ⟨.groupOpen k, next'⟩ → u = v)
    {i j v : Nat} (hij : Branches.Inside j i p.branches) {next opened : List Nat}
    (hn : (Graph.ofPattern p).nodes[v]? = some ⟨.groupOpen j, next⟩)
    (hv : ∀ steps, Balanced (Graph.ofPattern p).nodes steps v opened) : i ∈ opened := by
  obtain ⟨n, next', bs, hle, h, hj⟩ := exists_liesAt p.branches 2 (liesAt_ofPattern p).2.2 hij
  obtain ⟨w, _, h1, h2, hw⟩ := exists_groupOpen bs (n + 2) h.2.2 hj
  obtain rfl := hone hn hw
  have hreach := (reachable_ofPattern hne hfilled (Array.getElem?_eq_some_iff.1 hn).1).2
  exact mem_of_balanced h (fun ho => hone ho h.1) (Nat.lt_of_succ_le hle) hreach h1 h2 hv

end PatternGraph
