import PatternGraph.Proofs.Graph.Placement

/-!
# Scopes that are still to be finished

While a graph is built, the nodes of a scope that is not closed yet lie in their places already,
only that the last node of the current branch has no successors, or leads into a part that is being
built. An edge that is added to that node is added to what follows the branch.

* `Item.LiesAt`, `RunsTo`: the nodes of an item, and of a branch that leads to some nodes;
* `Agree`: two arrays have the same nodes in a range, `Atom.LiesAt.congr`: and so the same parts,
  **`agree_branches`**: parts that lie at the same place are the same nodes;
* `addEdge`: an edge is added behind those of a node;
* `Scope.LiesAt`: a scope as far as it has been read, **`Scope.LiesAt.addEdge`**: an edge is added
  at its end, **`Scope.liesAt_add`**: an item, **`Scope.LiesAt.bar`**: a branch is ended.
-/

namespace PatternGraph

/-! ## Items -/

/-- The first index behind an item that begins at `n`. -/
def Item.after : Item → Nat → Nat
  | .anchor _, n => n + 1
  | .atom a none, n => a.after n
  | .atom a (some q), n => a.after n + q.nodes

/-- The node from which one goes on behind an item that begins at `n`. -/
def Item.last : Item → Nat → Nat
  | .anchor _, n => n
  | .atom a none, n => a.last n
  | .atom a (some _), n => a.after n

/-- The ways into an item that begins at `n`. -/
def Item.ways : Item → Nat → List Nat
  | .atom a (some q), n => if q.skips then [n, a.after n] else [n]
  | _, n => [n]

/-- The nodes of the item lie at `n`, and the last of them leads `onward`. -/
def Item.LiesAt (ns : Array Node) (onward : List Nat) : Item → Nat → Prop
  | .anchor a, n => ns[n]? = some ⟨.anchor a, onward⟩
  | .atom a none, n => a.LiesAt ns onward n
  | .atom a (some q), n => a.LiesAt ns (q.onward n (a.after n)) n ∧ q.LiesAt ns n (a.after n) onward

/-- The ways into a branch that begins at `n`, where what follows is entered by `out`. -/
def ways (out : List Nat) : Branch → Nat → List Nat
  | [], _ => out
  | item :: _, n => item.ways n

/-- The nodes of the branch lie at `n`, and lead to `out`. -/
def RunsTo (ns : Array Node) (out : List Nat) : Branch → Nat → Prop
  | [], _ => True
  | item :: rest, n =>
    item.LiesAt ns (ways out rest (item.after n)) n ∧ RunsTo ns out rest (item.after n)

/-- The node from which one goes on behind a branch that begins at `n` and is entered from
`opening`. -/
def Branch.tail (opening : Nat) : Branch → Nat → Nat
  | [], _ => opening
  | item :: rest, n => Branch.tail (item.last n) rest (item.after n)

section

variable {ns : Array Node} {out : List Nat} {opening : Nat}

theorem Branch.after_cons (item : Item) (rest : Branch) (n : Nat) :
    Branch.after (item :: rest) n = Branch.after rest (item.after n) := by
  obtain a | ⟨a, _ | q⟩ := item <;> rw [Branch.after, Item.after]

theorem Branch.after_append (b b' : Branch) (n : Nat) :
    Branch.after (b ++ b') n = Branch.after b' (Branch.after b n) := by
  induction b generalizing n with
  | nil => rw [List.nil_append, Branch.after]
  | cons item b ih => rw [List.cons_append, after_cons, after_cons, ih]

theorem Item.last_bounds (item : Item) (n : Nat) :
    n ≤ item.last n ∧ item.last n < item.after n := by
  match item with
  | .anchor _ => exact ⟨Nat.le_refl n, Nat.lt_succ_self n⟩
  | .atom a none => exact ⟨a.le_last n, a.last_lt_after n⟩
  | .atom a (some q) => exact ⟨a.le_after n, Nat.lt_add_of_pos_right q.nodes_pos⟩

theorem Branch.tail_bounds {b : Branch} (hb : b ≠ []) (opening n : Nat) :
    n ≤ Branch.tail opening b n ∧ Branch.tail opening b n < Branch.after b n := by
  induction b generalizing opening n with
  | nil => exact absurd rfl hb
  | cons item rest ih =>
    obtain ⟨h1, h2⟩ := item.last_bounds n
    rw [Branch.tail, Branch.after_cons]
    by_cases hrest : rest = []
    · subst hrest
      exact ⟨h1, h2⟩
    · obtain ⟨h3, h4⟩ := ih hrest (item.last n) (item.after n)
      exact ⟨by omega, h4⟩

theorem Branch.tail_append (b : Branch) (item : Item) (n : Nat) :
    Branch.tail opening (b ++ [item]) n = item.last (Branch.after b n) := by
  induction b generalizing opening n with
  | nil => rw [List.nil_append, Branch.after]; rfl
  | cons x b ih => rw [List.cons_append, Branch.tail, ih, after_cons]

theorem ways_append (b b' : Branch) (n : Nat) :
    ways out (b ++ b') n = ways (ways out b' (Branch.after b n)) b n := by
  cases b with
  | nil => rw [List.nil_append, Branch.after, ways]
  | cons item b => rfl

theorem ways_of_ne_nil {b : Branch} (hb : b ≠ []) (out out' : List Nat) (n : Nat) :
    ways out b n = ways out' b n := by
  cases b with
  | nil => exact absurd rfl hb
  | cons item b => rfl

theorem ways_eq_entry (close : Nat) (b : Branch) (n : Nat) :
    ways [close] b n = entry close b n := by
  obtain _ | ⟨a | ⟨a, _ | q⟩, b⟩ := b <;> rfl

theorem runsTo_append {b b' : Branch} {n : Nat} : RunsTo ns out (b ++ b') n ↔
    RunsTo ns (ways out b' (Branch.after b n)) b n ∧ RunsTo ns out b' (Branch.after b n) := by
  induction b generalizing n with
  | nil => rw [List.nil_append, Branch.after, RunsTo, true_and]
  | cons item b ih =>
    rw [List.cons_append, RunsTo, RunsTo, ih, ways_append, Branch.after_cons, and_assoc]

/-- A branch that leads to the end of its scope lies in it. -/
theorem runsTo_iff_liesAt {close : Nat} {b : Branch} {n : Nat} :
    RunsTo ns [close] b n ↔ Branch.LiesAt ns close b n := by
  induction b generalizing n with
  | nil => rw [RunsTo, Branch.LiesAt]
  | cons item b ih =>
    rw [RunsTo, ih, ways_eq_entry]
    obtain a | ⟨a, _ | q⟩ := item
    · rw [Branch.LiesAt, Item.LiesAt, Item.after]
    · rw [Branch.LiesAt, Item.LiesAt, Item.after]
    · rw [Branch.LiesAt, Item.LiesAt, Item.after, and_assoc]

theorem lieAt_append {close : Nat} {bs : Branches} {b : Branch} {n : Nat} :
    Branches.LieAt ns close (bs ++ [b]) n ↔
      Branches.LieAt ns close bs n ∧ Branch.LiesAt ns close b (Branches.after bs n) := by
  induction bs generalizing n with
  | nil =>
    rw [List.nil_append, Branches.LieAt, Branches.LieAt, Branches.LieAt, Branches.after, and_true,
      true_and]
  | cons x bs ih =>
    rw [List.cons_append, Branches.LieAt, Branches.LieAt, ih, Branches.after, and_assoc]

end

/-! ## Arrays that agree -/

/-- The arrays have the same nodes from `low` on, below `high`. -/
def Agree (ns ns' : Array Node) (low high : Nat) : Prop :=
  ∀ i, low ≤ i → i < high → ns'[i]? = ns[i]?

section

variable {ns ns' : Array Node} {low mid high : Nat}

theorem Agree.mono {low' high' : Nat} (h : Agree ns ns' low high) (hl : low ≤ low')
    (hh : high' ≤ high) : Agree ns ns' low' high' :=
  fun i h1 h2 => h i (Nat.le_trans hl h1) (Nat.lt_of_lt_of_le h2 hh)

theorem Agree.trans {ns'' : Array Node} (h : Agree ns ns' low high)
    (h' : Agree ns' ns'' low high) : Agree ns ns'' low high :=
  fun i h1 h2 => (h' i h1 h2).trans (h i h1 h2)

theorem Agree.append (h : Agree ns ns' low mid) (h' : Agree ns ns' mid high) :
    Agree ns ns' low high := fun i h1 h2 =>
  (Nat.lt_or_ge i mid).elim (fun hi => h i h1 hi) fun hi => h' i hi h2

theorem agree_of_eq {n : Nat} (h : ns'[n]? = ns[n]?) : Agree ns ns' n (n + 1) := fun i h1 h2 => by
  obtain rfl : n = i := by omega
  exact h

theorem agree_push (nd : Node) (h : high ≤ ns.size) : Agree ns (ns.push nd) low high :=
  fun i _ h2 => by rw [Array.getElem?_push, if_neg (by omega)]

theorem Quantifier.LiesAt.congr {q : Quantifier} {n m : Nat} {following : List Nat}
    (h : q.LiesAt ns n m following) (ha : Agree ns ns' m (m + q.nodes)) :
    q.LiesAt ns' n m following := by
  have hjoin : ns'[m]? = ns[m]? := ha m (Nat.le_refl m) (Nat.lt_add_of_pos_right q.nodes_pos)
  cases q with
  | optional | star | plus => exact hjoin.trans h
  | counted b =>
    exact ⟨hjoin.trans h.1, (ha (m + 1) (Nat.le_succ m) (Nat.lt_succ_self _)).trans h.2⟩

theorem agree_quantifier {q : Quantifier} {n m : Nat} {following : List Nat}
    (h : q.LiesAt ns n m following) (h' : q.LiesAt ns' n m following) :
    Agree ns ns' m (m + q.nodes) := by
  cases q with
  | optional | star | plus => exact agree_of_eq (h'.trans h.symm)
  | counted b =>
    exact (agree_of_eq (h'.1.trans h.1.symm)).append (agree_of_eq (h'.2.trans h.2.symm))

mutual

theorem Atom.LiesAt.congr {onward : List Nat} : ∀ {a : Atom} {n : Nat}, a.LiesAt ns onward n →
    Agree ns ns' n (a.after n) → a.LiesAt ns' onward n
  | .test _, n, h, ha => (ha n (Nat.le_refl n) (Nat.lt_succ_self n)).trans h
  | .backref _, n, h, ha => (ha n (Nat.le_refl n) (Nat.lt_succ_self n)).trans h
  | .group k bs, n, h, ha => by
    have hle := Branches.le_after bs (n + 2)
    rw [Atom.after] at ha
    exact ⟨(ha n (by omega) (by omega)).trans h.1, (ha (n + 1) (by omega) (by omega)).trans h.2.1,
      Branches.LieAt.congr h.2.2 (ha.mono (by omega) (Nat.le_refl _))⟩

theorem Branches.LieAt.congr {close : Nat} : ∀ {bs : List (List Item)} {n : Nat},
    Branches.LieAt ns close bs n → Agree ns ns' n (Branches.after bs n) →
      Branches.LieAt ns' close bs n
  | [], _, _, _ => trivial
  | b :: bs, n, h, ha => by
    rw [Branches.after] at ha
    exact ⟨Branch.LiesAt.congr h.1 (ha.mono (Nat.le_refl _) (Branches.le_after bs _)),
      Branches.LieAt.congr h.2 (ha.mono (Branch.le_after b n) (Nat.le_refl _))⟩

theorem Branch.LiesAt.congr {close : Nat} : ∀ {b : List Item} {n : Nat},
    Branch.LiesAt ns close b n → Agree ns ns' n (Branch.after b n) → Branch.LiesAt ns' close b n
  | [], _, _, _ => trivial
  | .anchor a :: rest, n, h, ha => by
    rw [Branch.after] at ha
    exact ⟨(ha n (Nat.le_refl n) (Branch.le_after rest _)).trans h.1,
      Branch.LiesAt.congr h.2 (ha.mono (Nat.le_succ n) (Nat.le_refl _))⟩
  | .atom a none :: rest, n, h, ha => by
    rw [Branch.after] at ha
    exact ⟨Atom.LiesAt.congr h.1 (ha.mono (Nat.le_refl _) (Branch.le_after rest _)),
      Branch.LiesAt.congr h.2 (ha.mono (a.le_after n) (Nat.le_refl _))⟩
  | .atom a (some q) :: rest, n, h, ha => by
    have hle := Branch.le_after rest (a.after n + q.nodes)
    have hle' := a.le_after n
    rw [Branch.after] at ha
    exact ⟨Atom.LiesAt.congr h.1 (ha.mono (Nat.le_refl _) (by omega)),
      Quantifier.LiesAt.congr h.2.1 (ha.mono hle' hle),
      Branch.LiesAt.congr h.2.2 (ha.mono (by omega) (Nat.le_refl _))⟩

end

mutual

theorem agree_atom {onward : List Nat} : ∀ (a : Atom) (n : Nat), a.LiesAt ns onward n →
    a.LiesAt ns' onward n → Agree ns ns' n (a.after n)
  | .test _, _, h, h' => agree_of_eq (h'.trans h.symm)
  | .backref _, _, h, h' => agree_of_eq (h'.trans h.symm)
  | .group _ bs, n, h, h' =>
    ((agree_of_eq (h'.1.trans h.1.symm)).append (agree_of_eq (h'.2.1.trans h.2.1.symm))).append
      (agree_branches bs (n + 2) h.2.2 h'.2.2)

/-- **Branches that lie at the same place are the same nodes.** -/
theorem agree_branches {close : Nat} : ∀ (bs : List (List Item)) (n : Nat),
    Branches.LieAt ns close bs n → Branches.LieAt ns' close bs n →
      Agree ns ns' n (Branches.after bs n)
  | [], _, _, _ => fun _ h1 h2 => absurd h2 (Nat.not_lt.2 h1)
  | b :: bs, n, h, h' => (agree_branch b n h.1 h'.1).append (agree_branches bs _ h.2 h'.2)

theorem agree_branch {close : Nat} : ∀ (b : List Item) (n : Nat), Branch.LiesAt ns close b n →
    Branch.LiesAt ns' close b n → Agree ns ns' n (Branch.after b n)
  | [], _, _, _ => fun _ h1 h2 => absurd h2 (Nat.not_lt.2 h1)
  | .anchor _ :: rest, n, h, h' =>
    (agree_of_eq (h'.1.trans h.1.symm)).append (agree_branch rest (n + 1) h.2 h'.2)
  | .atom a none :: rest, n, h, h' =>
    (agree_atom a n h.1 h'.1).append (agree_branch rest (a.after n) h.2 h'.2)
  | .atom a (some q) :: rest, n, h, h' =>
    ((agree_atom a n h.1 h'.1).append (agree_quantifier h.2.1 h'.2.1)).append
      (agree_branch rest (a.after n + q.nodes) h.2.2 h'.2.2)

end

end

/-! ## Edges -/

/-- The edge to `target` is added behind those of `source`. -/
def addEdge (ns : Array Node) (source target : Nat) : Array Node :=
  ns.modify source fun nd => { nd with next := nd.next ++ [target] }

section

variable {ns : Array Node} {source target : Nat} {kind : NodeKind} {onward out : List Nat}

@[simp] theorem size_addEdge : (addEdge ns source target).size = ns.size := Array.size_modify

theorem getElem?_addEdge_of_ne {i : Nat} (h : source ≠ i) :
    (addEdge ns source target)[i]? = ns[i]? := by
  rw [addEdge, Array.getElem?_modify, if_neg h]

theorem getElem?_addEdge_self (h : ns[source]? = some ⟨kind, onward⟩) :
    (addEdge ns source target)[source]? = some ⟨kind, onward ++ [target]⟩ := by
  rw [addEdge, Array.getElem?_modify, if_pos rfl, h]
  rfl

theorem agree_addEdge {low high : Nat} (h : source < low ∨ high ≤ source) :
    Agree ns (addEdge ns source target) low high :=
  fun _ h1 h2 => getElem?_addEdge_of_ne (by omega)

theorem Atom.LiesAt.addEdge : ∀ {a : Atom} {n : Nat}, a.LiesAt ns onward n →
    a.LiesAt (addEdge ns (a.last n) target) (onward ++ [target]) n
  | .test _, _, h => getElem?_addEdge_self h
  | .backref _, _, h => getElem?_addEdge_self h
  | .group _ _, n, h =>
    ⟨(getElem?_addEdge_of_ne (Nat.succ_ne_self n)).trans h.1, getElem?_addEdge_self h.2.1,
      Branches.LieAt.congr h.2.2 (agree_addEdge (.inl (Nat.lt_succ_self (n + 1))))⟩

theorem Quantifier.LiesAt.addEdge {q : Quantifier} {n m : Nat} (h : q.LiesAt ns n m onward) :
    q.LiesAt (addEdge ns m target) n m (onward ++ [target]) := by
  cases q with
  | optional | star | plus => exact getElem?_addEdge_self h
  | counted b =>
    exact ⟨getElem?_addEdge_self h.1, (getElem?_addEdge_of_ne (Nat.succ_ne_self m).symm).trans h.2⟩

theorem Item.LiesAt.congr {ns' : Array Node} {item : Item} {n : Nat}
    (h : item.LiesAt ns onward n) (ha : Agree ns ns' n (item.after n)) :
    item.LiesAt ns' onward n := by
  match item with
  | .anchor _ => exact (ha n (Nat.le_refl n) (Nat.lt_succ_self n)).trans h
  | .atom a none => exact Atom.LiesAt.congr h ha
  | .atom a (some q) =>
    exact ⟨h.1.congr (ha.mono (Nat.le_refl n) (Nat.le_add_right _ _)),
      h.2.congr (ha.mono (a.le_after n) (Nat.le_refl _))⟩

theorem Item.LiesAt.addEdge {item : Item} {n : Nat} (h : item.LiesAt ns onward n) :
    item.LiesAt (addEdge ns (item.last n) target) (onward ++ [target]) n := by
  match item with
  | .anchor _ => exact getElem?_addEdge_self h
  | .atom a none => exact Atom.LiesAt.addEdge h
  | .atom a (some q) =>
    exact ⟨h.1.congr (agree_addEdge (.inr (Nat.le_refl _))), h.2.addEdge⟩

theorem RunsTo.congr {ns' : Array Node} {b : Branch} {n : Nat} (h : RunsTo ns out b n)
    (ha : Agree ns ns' n (Branch.after b n)) : RunsTo ns' out b n := by
  induction b generalizing n with
  | nil => trivial
  | cons item rest ih =>
    have hlt := item.last_bounds n
    have hle := Branch.le_after rest (item.after n)
    rw [Branch.after_cons] at ha
    exact ⟨h.1.congr (ha.mono (Nat.le_refl n) hle), ih h.2 (ha.mono (by omega) (Nat.le_refl _))⟩

theorem RunsTo.addEdge {opening : Nat} {b : Branch} {n : Nat} (h : RunsTo ns out b n) :
    RunsTo (addEdge ns (Branch.tail opening b n) target) (out ++ [target]) b n := by
  induction b generalizing opening n with
  | nil => trivial
  | cons item rest ih =>
    refine ⟨?_, ih h.2⟩
    by_cases hrest : rest = []
    · subst hrest
      exact h.1.addEdge
    · obtain ⟨hlow, -⟩ := Branch.tail_bounds hrest (item.last n) (item.after n)
      rw [ways_of_ne_nil hrest (out ++ [target]) out]
      exact h.1.congr (agree_addEdge (.inr hlow))

end

/-! ## Scopes -/

namespace Scope

/-- Where the current branch of a scope that opens at `o` begins. -/
def low (s : Scope) (o : Nat) : Nat := Branches.after s.branches.reverse (o + 2)

/-- The first index behind a scope that opens at `o`, as far as it has been read. -/
def high (s : Scope) (o : Nat) : Nat := Branch.after s.items.reverse (s.low o)

/-- The node from which one goes on in a scope that opens at `o`. -/
def tail (s : Scope) (o : Nat) : Nat := Branch.tail o s.items.reverse (s.low o)

/-- A scope that opens at `o` has been wired between a node that opens it and one that closes it,
and its current branch leads to `out`. -/
structure LiesAt (ns : Array Node) (opens closes : NodeKind) (out : List Nat) (s : Scope)
    (o : Nat) : Prop where
  opening : ns[o]? = some
    ⟨opens, heads (o + 1) s.branches.reverse (o + 2) ++ ways out s.items.reverse (s.low o)⟩
  closing : ns[o + 1]? = some ⟨closes, []⟩
  branches : Branches.LieAt ns (o + 1) s.branches.reverse (o + 2)
  items : RunsTo ns out s.items.reverse (s.low o)

variable {ns ns' : Array Node} {opens closes : NodeKind} {out : List Nat} {s : Scope} {o : Nat}

theorem low_le (s : Scope) (o : Nat) : o + 2 ≤ s.low o := Branches.le_after _ _

theorem low_le_high (s : Scope) (o : Nat) : s.low o ≤ s.high o := Branch.le_after _ _

theorem le_tail (s : Scope) (o : Nat) : o ≤ s.tail o := by
  by_cases hs : s.items.reverse = []
  · exact Nat.le_of_eq (by rw [tail, hs, Branch.tail])
  · have hlow := s.low_le o
    exact Nat.le_trans (by omega) (Branch.tail_bounds hs o (s.low o)).1

theorem tail_lt (s : Scope) (o : Nat) : s.tail o < s.high o := by
  by_cases hs : s.items.reverse = []
  · have hlow := s.low_le o
    rw [tail, high, hs, Branch.tail, Branch.after]
    omega
  · exact (Branch.tail_bounds hs o (s.low o)).2

theorem high_add (s : Scope) (item : Item) (o : Nat) :
    (s.add item).high o = item.after (s.high o) := by
  rw [high, add, List.reverse_cons, Branch.after_append, Branch.after_cons, Branch.after]
  rfl

theorem tail_add (s : Scope) (item : Item) (o : Nat) :
    (s.add item).tail o = item.last (s.high o) := by
  rw [tail, add, List.reverse_cons, Branch.tail_append]
  rfl

theorem low_bar (s : Scope) (o : Nat) : s.bar.low o = s.high o := by
  rw [low, bar, List.reverse_cons, Branches.after_append, Branches.after, Branches.after]
  rfl

theorem high_bar (s : Scope) (o : Nat) : s.bar.high o = s.high o := by
  rw [high, low_bar, bar, List.reverse_nil, Branch.after]

theorem LiesAt.congr (h : s.LiesAt ns opens closes out o) (ha : Agree ns ns' o (s.high o)) :
    s.LiesAt ns' opens closes out o := by
  have hlow := s.low_le o
  have hhigh := s.low_le_high o
  exact ⟨(ha o (Nat.le_refl o) (by omega)).trans h.opening,
    (ha (o + 1) (Nat.le_succ o) (by omega)).trans h.closing,
    h.branches.congr (ha.mono (by omega) hhigh), h.items.congr (ha.mono (by omega) (Nat.le_refl _))⟩

/-- **An edge from the last node of a scope follows the ways that lead on from it.** -/
theorem LiesAt.addEdge (h : s.LiesAt ns opens closes out o) (target : Nat) :
    s.LiesAt (addEdge ns (s.tail o) target) opens closes (out ++ [target]) o := by
  have hlow := s.low_le o
  by_cases hs : s.items.reverse = []
  · have htail : s.tail o = o := by rw [tail, hs, Branch.tail]
    have hopening := h.opening
    rw [hs, ways] at hopening
    rw [htail]
    refine ⟨?_, (getElem?_addEdge_of_ne (Nat.succ_ne_self o).symm).trans h.closing,
      h.branches.congr (agree_addEdge (.inl (by omega))), ?_⟩
    · rw [hs, ways, ← List.append_assoc]
      exact getElem?_addEdge_self hopening
    · rw [hs]
      trivial
  · obtain ⟨htail, -⟩ := Branch.tail_bounds hs o (s.low o)
    refine ⟨?_, ?_, h.branches.congr (agree_addEdge (.inr htail)), h.items.addEdge⟩
    · rw [ways_of_ne_nil hs (out ++ [target]) out]
      exact (getElem?_addEdge_of_ne (by rw [tail]; omega)).trans h.opening
    · exact (getElem?_addEdge_of_ne (by rw [tail]; omega)).trans h.closing

/-- **The last item of a scope lies behind the others, which lead to it.** -/
theorem liesAt_add {item : Item} : (s.add item).LiesAt ns opens closes out o ↔
    s.LiesAt ns opens closes (item.ways (s.high o)) o ∧ item.LiesAt ns out (s.high o) := by
  have hways : ways out (s.add item).items.reverse (s.low o) =
      ways (item.ways (s.high o)) s.items.reverse (s.low o) := by
    rw [add, List.reverse_cons, ways_append]
    rfl
  have hruns : RunsTo ns out (s.add item).items.reverse (s.low o) ↔
      RunsTo ns (item.ways (s.high o)) s.items.reverse (s.low o) ∧
        item.LiesAt ns out (s.high o) := by
    rw [add, List.reverse_cons, runsTo_append, RunsTo, RunsTo, and_true]
    rfl
  constructor
  · rintro ⟨ho, hc, hb, hi⟩
    obtain ⟨hi, hitem⟩ := hruns.1 hi
    exact ⟨⟨hways ▸ ho, hc, hb, hi⟩, hitem⟩
  · rintro ⟨⟨ho, hc, hb, hi⟩, hitem⟩
    refine ⟨?_, hc, hb, hruns.2 ⟨hi, hitem⟩⟩
    show ns[o]? = some ⟨opens, _ ++ ways out (s.add item).items.reverse (s.low o)⟩
    rw [hways]
    exact ho

/-- **A branch that leads to the end of its scope is one of those that have been ended.** -/
theorem LiesAt.bar (h : s.LiesAt ns opens closes [o + 1] o) :
    s.bar.LiesAt ns opens closes [] o := by
  have hrev : s.bar.branches.reverse = s.branches.reverse ++ [s.items.reverse] :=
    List.reverse_cons
  refine ⟨?_, h.closing, ?_, trivial⟩
  · have hopening := h.opening
    rw [ways_eq_entry] at hopening
    rw [hrev, heads_append, heads_singleton, show s.bar.items.reverse = [] from rfl, ways,
      List.append_nil]
    exact hopening
  · rw [hrev]
    exact lieAt_append.2 ⟨h.branches, runsTo_iff_liesAt.1 h.items⟩

end Scope

end PatternGraph
