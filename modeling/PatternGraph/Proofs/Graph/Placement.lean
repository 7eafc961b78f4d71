import Mathlib.Data.List.Basic
import PatternGraph.Graph.Layout
import PatternGraph.Proofs.Pattern.Fits

/-!
# Where the parts of a pattern lie in its graph

The layout adds the nodes of one part behind those of another. Here it is read the other way: a
part of the tree lies at an index of a graph if its nodes are there, with the successors that lead
into what follows.

* `Atom.LiesAt`, `Branch.LiesAt`, `Branches.LieAt`, `Quantifier.LiesAt`;
* `heads_cons`: the ways into branches are those into one branch after the other;
* `Beside`: the nodes of two graphs go in pairs from one index to another;
* **`liesAt_ofPattern`**: the graph of a pattern holds all its parts where the indices say;
* **`Graph.kinds_ofPattern`**: it holds no other kinds of nodes than its parts ask for.
-/

namespace PatternGraph

/-- Where the nodes of a quantifier lie: a join that leads on, and behind it the node that
counts. -/
def Quantifier.LiesAt (ns : Array Node) (n m : Nat) (following : List Nat) : Quantifier → Prop
  | .counted bounds =>
    ns[m]? = some ⟨.join, following⟩ ∧ ns[m + 1]? = some ⟨.repetition bounds m, [n]⟩
  | _ => ns[m]? = some ⟨.join, following⟩

mutual

/-- The nodes of the atom lie at `n`, and the last of them leads `onward`. -/
def Atom.LiesAt (ns : Array Node) (onward : List Nat) : Atom → Nat → Prop
  | .test t, n => ns[n]? = some ⟨.test t, onward⟩
  | .backref k, n => ns[n]? = some ⟨.backref k, onward⟩
  | .group k bs, n =>
    ns[n]? = some ⟨.groupOpen k, heads (n + 1) bs (n + 2)⟩ ∧
      ns[n + 1]? = some ⟨.groupClose k, onward⟩ ∧ Branches.LieAt ns (n + 1) bs (n + 2)

/-- The nodes of the branches lie at `n`, in a scope that closes at `close`. -/
def Branches.LieAt (ns : Array Node) (close : Nat) : List (List Item) → Nat → Prop
  | [], _ => True
  | b :: bs, n => Branch.LiesAt ns close b n ∧ Branches.LieAt ns close bs (Branch.after b n)

/-- The nodes of the branch lie at `n`, in a scope that closes at `close`. -/
def Branch.LiesAt (ns : Array Node) (close : Nat) : List Item → Nat → Prop
  | [], _ => True
  | .anchor a :: rest, n =>
    ns[n]? = some ⟨.anchor a, entry close rest (n + 1)⟩ ∧ Branch.LiesAt ns close rest (n + 1)
  | .atom a none :: rest, n =>
    a.LiesAt ns (entry close rest (a.after n)) n ∧ Branch.LiesAt ns close rest (a.after n)
  | .atom a (some q) :: rest, n =>
    a.LiesAt ns (q.onward n (a.after n)) n ∧
      q.LiesAt ns n (a.after n) (entry close rest (a.after n + q.nodes)) ∧
      Branch.LiesAt ns close rest (a.after n + q.nodes)

end

/-! ## The ways into branches -/

theorem foldl_entry (close : Nat) (bs : Branches) : ∀ (edges : Array Nat) (n : Nat),
    (bs.foldl (fun (x : Array Nat × Nat) b => (x.1 ++ entry close b x.2, Branch.after b x.2))
      (edges, n)).1.toList = edges.toList ++ heads close bs n := by
  induction bs with
  | nil =>
    intro edges n
    exact (List.append_nil edges.toList).symm
  | cons b bs ih =>
    intro edges n
    have hb : heads close (b :: bs) n = ((#[] : Array Nat) ++ entry close b n).toList ++
        heads close bs (Branch.after b n) := ih _ _
    rw [List.foldl_cons, ih, hb]
    simp

theorem heads_cons (close : Nat) (b : Branch) (bs : Branches) (n : Nat) :
    heads close (b :: bs) n = entry close b n ++ heads close bs (Branch.after b n) := by
  have h : heads close (b :: bs) n = ((#[] : Array Nat) ++ entry close b n).toList ++
      heads close bs (Branch.after b n) := foldl_entry close bs _ _
  rw [h]
  simp

@[simp] theorem heads_nil (close n : Nat) : heads close [] n = [] := rfl

theorem heads_singleton (close : Nat) (b : Branch) (n : Nat) :
    heads close [b] n = entry close b n := by
  rw [heads_cons, heads_nil, List.append_nil]

theorem Branches.after_append (bs bs' : Branches) (n : Nat) :
    Branches.after (bs ++ bs') n = Branches.after bs' (Branches.after bs n) := by
  induction bs generalizing n with
  | nil => rw [List.nil_append, Branches.after]
  | cons b bs ih => rw [List.cons_append, Branches.after, Branches.after, ih]

theorem heads_append (close : Nat) (bs bs' : Branches) (n : Nat) :
    heads close (bs ++ bs') n = heads close bs n ++ heads close bs' (Branches.after bs n) := by
  induction bs generalizing n with
  | nil => rw [List.nil_append, heads_nil, Branches.after, List.nil_append]
  | cons b bs ih =>
    rw [List.cons_append, heads_cons, heads_cons, ih, Branches.after, List.append_assoc]

theorem mem_entry_of_quantified {close n i : Nat} {a : Atom} {q : Quantifier} {rest : Branch}
    (h : i ∈ entry close (.atom a (some q) :: rest) n) : i = n ∨ q.skips ∧ i = a.after n := by
  simp only [entry] at h
  split at h
  · next hs => rcases List.mem_pair.1 h with h | h <;> simp [h, hs]
  · exact .inl (List.mem_singleton.1 h)

/-! ## The indices behind a part -/

mutual

theorem Atom.lt_after : ∀ (a : Atom) (n : Nat), n < a.after n
  | .test _, n => Nat.lt_succ_self n
  | .backref _, n => Nat.lt_succ_self n
  | .group _ bs, n =>
    Nat.lt_of_lt_of_le (Nat.lt_add_of_pos_right Nat.two_pos) (Branches.le_after bs (n + 2))

theorem Branches.le_after : ∀ (bs : List (List Item)) (n : Nat), n ≤ Branches.after bs n
  | [], n => Nat.le_refl n
  | b :: bs, n => Nat.le_trans (Branch.le_after b n) (Branches.le_after bs _)

theorem Branch.le_after : ∀ (b : List Item) (n : Nat), n ≤ Branch.after b n
  | [], n => Nat.le_refl n
  | .anchor _ :: rest, n => Nat.le_trans (Nat.le_succ n) (Branch.le_after rest _)
  | .atom a none :: rest, n =>
    Nat.le_trans (Nat.le_of_lt (a.lt_after n)) (Branch.le_after rest _)
  | .atom a (some q) :: rest, n =>
    Nat.le_trans (Nat.le_trans (Nat.le_of_lt (a.lt_after n)) (Nat.le_add_right _ q.nodes))
      (Branch.le_after rest _)

end

theorem Atom.le_after (a : Atom) (n : Nat) : n ≤ a.after n := Nat.le_of_lt (a.lt_after n)

theorem Quantifier.nodes_pos (q : Quantifier) : 0 < q.nodes := by
  cases q <;> exact Nat.succ_pos _

/-- The index of the last node of an atom that begins at index `n`. -/
def Atom.last : Atom → Nat → Nat
  | .group _ _, n => n + 1
  | _, n => n

theorem Atom.le_last (a : Atom) (n : Nat) : n ≤ a.last n := by
  cases a with
  | group k bs => exact Nat.le_succ n
  | _ => exact Nat.le_refl n

theorem Atom.last_lt_after (a : Atom) (n : Nat) : a.last n < a.after n := by
  cases a with
  | group k bs => exact Branches.le_after bs (n + 2)
  | _ => exact Nat.lt_succ_self n

/-! ## Nodes that stay where they are -/

/-- Every node of `ns` is in `ns'` at the same index. -/
def Extends (ns ns' : Array Node) : Prop :=
  ∀ (i : Nat) (nd : Node), ns[i]? = some nd → ns'[i]? = some nd

section

variable {ns ns' : Array Node}

theorem Extends.refl (ns : Array Node) : Extends ns ns := fun _ _ h => h

theorem Extends.trans {ns'' : Array Node} (h : Extends ns ns') (h' : Extends ns' ns'') :
    Extends ns ns'' := fun i nd hi => h' i nd (h i nd hi)

theorem extends_push (ns : Array Node) (nd : Node) : Extends ns (ns.push nd) := by
  intro i x h
  obtain ⟨hi, hx⟩ := Array.getElem?_eq_some_iff.1 h
  rw [Array.getElem?_push_lt hi, hx]

theorem extends_append (added : List Node) : ∀ ns : Array Node, Extends ns (ns ++ added) := by
  induction added with
  | nil => intro ns; rw [Array.appendList_nil]; exact .refl ns
  | cons nd added ih =>
    intro ns
    rw [Array.appendList_cons]
    exact (extends_push ns nd).trans (ih _)

theorem Extends.getElem?_of_push {nd : Node} (h : Extends (ns.push nd) ns') :
    ns'[ns.size]? = some nd := h _ _ Array.getElem?_push_size

end

theorem Quantifier.size_layout (n m : Nat) (following : List Nat) (q : Quantifier) :
    (q.layout n m following).length = q.nodes := by
  cases q <;> rfl

theorem size_append (ns : Array Node) (added : List Node) :
    (ns ++ added).size = ns.size + added.length := by
  rw [← Array.length_toList, Array.toList_appendList, List.length_append, Array.length_toList]

mutual

theorem size_layoutAtom (onward : List Nat) :
    ∀ (a : Atom) (ns : Array Node), (layoutAtom onward a ns).size = a.after ns.size
  | .test _, ns => by rw [layoutAtom, Array.size_push, Atom.after]
  | .backref _, ns => by rw [layoutAtom, Array.size_push, Atom.after]
  | .group _ bs, ns => by
    rw [layoutAtom, size_layoutBranches _ bs, Array.size_push, Array.size_push, Atom.after]

theorem size_layoutBranches (close : Nat) :
    ∀ (bs : List (List Item)) (ns : Array Node),
      (layoutBranches close bs ns).size = Branches.after bs ns.size
  | [], ns => by rw [layoutBranches, Branches.after]
  | b :: bs, ns => by
    rw [layoutBranches, size_layoutBranches close bs, size_layoutBranch close b, Branches.after]

theorem size_layoutBranch (close : Nat) :
    ∀ (b : List Item) (ns : Array Node), (layoutBranch close b ns).size = Branch.after b ns.size
  | [], ns => by rw [layoutBranch, Branch.after]
  | .anchor _ :: rest, ns => by
    rw [layoutBranch, size_layoutBranch close rest, Array.size_push, Branch.after]
  | .atom a none :: rest, ns => by
    rw [layoutBranch, size_layoutBranch close rest, size_layoutAtom _ a, Branch.after]
  | .atom a (some q) :: rest, ns => by
    rw [layoutBranch, size_layoutBranch close rest, size_append, size_layoutAtom _ a,
      q.size_layout, Branch.after]

end

mutual

theorem extends_layoutAtom (onward : List Nat) :
    ∀ (a : Atom) (ns : Array Node), Extends ns (layoutAtom onward a ns)
  | .test _, ns => extends_push ns _
  | .backref _, ns => extends_push ns _
  | .group _ bs, ns =>
    ((extends_push ns _).trans (extends_push _ _)).trans (extends_layoutBranches _ bs _)

theorem extends_layoutBranches (close : Nat) :
    ∀ (bs : List (List Item)) (ns : Array Node), Extends ns (layoutBranches close bs ns)
  | [], ns => .refl ns
  | b :: bs, ns => (extends_layoutBranch close b ns).trans (extends_layoutBranches close bs _)

theorem extends_layoutBranch (close : Nat) :
    ∀ (b : List Item) (ns : Array Node), Extends ns (layoutBranch close b ns)
  | [], ns => .refl ns
  | .anchor _ :: rest, ns => (extends_push ns _).trans (extends_layoutBranch close rest _)
  | .atom a none :: rest, ns =>
    (extends_layoutAtom _ a ns).trans (extends_layoutBranch close rest _)
  | .atom a (some _) :: rest, ns =>
    ((extends_layoutAtom _ a ns).trans (extends_append _ _)).trans
      (extends_layoutBranch close rest _)

end

theorem Quantifier.liesAt_layout {ns ns' : Array Node} {n m : Nat} {following : List Nat}
    {q : Quantifier} (hm : ns.size = m) (h : Extends (ns ++ q.layout n m following) ns') :
    q.LiesAt ns' n m following := by
  subst hm
  cases q with
  | optional | star | plus =>
    simp only [Quantifier.layout, Array.appendList_cons, Array.appendList_nil] at h
    exact h.getElem?_of_push
  | counted bounds =>
    simp only [Quantifier.layout, Array.appendList_cons, Array.appendList_nil] at h
    have hr := h.getElem?_of_push
    rw [Array.size_push] at hr
    exact ⟨((extends_push _ _).trans h).getElem?_of_push, hr⟩

mutual

theorem liesAt_layoutAtom {onward : List Nat} {ns' : Array Node} :
    ∀ (a : Atom) (ns : Array Node), Extends (layoutAtom onward a ns) ns' →
      a.LiesAt ns' onward ns.size
  | .test _, ns, h => h.getElem?_of_push
  | .backref _, ns, h => h.getElem?_of_push
  | .group k bs, ns, h => by
    rw [layoutAtom] at h
    have hb := lieAt_layoutBranches bs _ h
    have hc := ((extends_layoutBranches _ bs _).trans h).getElem?_of_push
    have ho := (((extends_push _ _).trans (extends_layoutBranches _ bs _)).trans h).getElem?_of_push
    rw [Array.size_push] at hc
    rw [Array.size_push, Array.size_push] at hb
    exact ⟨ho, hc, hb⟩

theorem lieAt_layoutBranches {close : Nat} {ns' : Array Node} :
    ∀ (bs : List (List Item)) (ns : Array Node), Extends (layoutBranches close bs ns) ns' →
      Branches.LieAt ns' close bs ns.size
  | [], _, _ => trivial
  | b :: bs, ns, h => by
    rw [layoutBranches] at h
    have hbs := lieAt_layoutBranches bs _ h
    rw [size_layoutBranch] at hbs
    exact ⟨liesAt_layoutBranch b ns ((extends_layoutBranches close bs _).trans h), hbs⟩

theorem liesAt_layoutBranch {close : Nat} {ns' : Array Node} :
    ∀ (b : List Item) (ns : Array Node), Extends (layoutBranch close b ns) ns' →
      Branch.LiesAt ns' close b ns.size
  | [], _, _ => trivial
  | .anchor a :: rest, ns, h => by
    rw [layoutBranch] at h
    have hr := liesAt_layoutBranch rest _ h
    rw [Array.size_push] at hr
    exact ⟨((extends_layoutBranch close rest _).trans h).getElem?_of_push, hr⟩
  | .atom a none :: rest, ns, h => by
    rw [layoutBranch] at h
    have hr := liesAt_layoutBranch rest _ h
    rw [size_layoutAtom] at hr
    exact ⟨liesAt_layoutAtom a ns ((extends_layoutBranch close rest _).trans h), hr⟩
  | .atom a (some q) :: rest, ns, h => by
    rw [layoutBranch] at h
    have hr := liesAt_layoutBranch rest _ h
    have hq := (extends_layoutBranch close rest _).trans h
    have ha := (extends_append _ _).trans hq
    rw [size_append, q.size_layout, size_layoutAtom] at hr
    exact ⟨liesAt_layoutAtom a ns ha, Quantifier.liesAt_layout (size_layoutAtom _ a ns) hq, hr⟩

end

/-- **The graph of a pattern holds all its parts**, between a node that opens the whole match and
the terminal. -/
theorem liesAt_ofPattern (p : Pattern) :
    (Graph.ofPattern p).nodes[0]? = some ⟨.groupOpen 0, heads 1 p.branches 2⟩ ∧
      (Graph.ofPattern p).nodes[1]? = some ⟨.terminal, []⟩ ∧
      Branches.LieAt (Graph.ofPattern p).nodes 1 p.branches 2 := by
  have h := extends_layoutBranches 1 p.branches
    #[⟨.groupOpen 0, heads 1 p.branches 2⟩, ⟨.terminal, []⟩]
  exact ⟨h 0 _ rfl, h 1 _ rfl, lieAt_layoutBranches p.branches _ (.refl _)⟩

theorem Graph.one_lt_size_ofPattern (p : Pattern) : 1 < (Graph.ofPattern p).size :=
  (Array.getElem?_eq_some_iff.1 (liesAt_ofPattern p).2.1).1

/-! ## Two graphs side by side -/

/-- From `low` on, below `high`, each node of `ns` has a partner in `ns'` at the same index. -/
def Beside (R : Nat → Node → Node → Prop) (ns ns' : Array Node) (low high : Nat) : Prop :=
  ∀ (v : Nat) (nd : Node), low ≤ v → v < high → ns[v]? = some nd →
    ∃ nd', ns'[v]? = some nd' ∧ R v nd nd'

section

variable {R : Nat → Node → Node → Prop} {ns ns' : Array Node} {low mid high : Nat}

theorem Beside.empty (ns ns' : Array Node) (n : Nat) : Beside R ns ns' n n :=
  fun _ _ hl hh _ => absurd hh (Nat.not_lt_of_le hl)

theorem Beside.single {v : Nat} {nd nd' : Node} (hn : ns[v]? = some nd) (hn' : ns'[v]? = some nd')
    (h : R v nd nd') : Beside R ns ns' v (v + 1) := by
  intro w x hl hh hx
  obtain rfl : w = v := Nat.le_antisymm (Nat.le_of_lt_succ hh) hl
  rw [hn] at hx
  cases hx
  exact ⟨nd', hn', h⟩

theorem Beside.append (h : Beside R ns ns' low mid) (h' : Beside R ns ns' mid high) :
    Beside R ns ns' low high := by
  intro v nd hl hh hn
  rcases Nat.lt_or_ge v mid with hm | hm
  · exact h v nd hl hm hn
  · exact h' v nd hm hh hn

end

/-! ## The kinds of the nodes -/

/-- The property holds for the nodes that an atom takes itself. -/
def Atom.Yields (K : NodeKind → Prop) : Atom → Prop
  | .test t => K (.test t)
  | .backref k => K (.backref k)
  | .group k _ => K (.groupOpen k) ∧ K (.groupClose k)

/-- The property holds for the nodes that a quantifier takes. -/
def Quantifier.Yields (K : NodeKind → Prop) : Quantifier → Prop
  | .counted bounds => K .join ∧ ∀ exit, K (.repetition bounds exit)
  | _ => K .join

/-- The property holds for the nodes that an item takes, apart from those inside a group. -/
def Item.Yields (K : NodeKind → Prop) : Item → Prop
  | .anchor a => K (.anchor a)
  | .atom a q => a.Yields K ∧ ∀ x ∈ q, x.Yields K

/-- The property holds for all nodes from index `low` on. -/
def KindsFrom (K : NodeKind → Prop) (low : Nat) (ns : Array Node) : Prop :=
  ∀ (i : Nat) (nd : Node), low ≤ i → ns[i]? = some nd → K nd.kind

section

variable {K : NodeKind → Prop} {low : Nat}

theorem KindsFrom.push {ns : Array Node} {nd : Node} (h : KindsFrom K low ns) (hn : K nd.kind) :
    KindsFrom K low (ns.push nd) := by
  intro i x hi hx
  rw [Array.getElem?_push] at hx
  split at hx
  · cases hx; exact hn
  · exact h i x hi hx

theorem KindsFrom.append_layout {ns : Array Node} {q : Quantifier} (h : KindsFrom K low ns)
    (hq : q.Yields K) (n m : Nat) (following : List Nat) :
    KindsFrom K low (ns ++ q.layout n m following) := by
  cases q with
  | optional | star | plus =>
    simp only [Quantifier.layout, Array.appendList_cons, Array.appendList_nil]
    exact h.push hq
  | counted bounds =>
    simp only [Quantifier.layout, Array.appendList_cons, Array.appendList_nil]
    exact (h.push hq.1).push (hq.2 m)

mutual

theorem KindsFrom.layoutAtom {onward : List Nat} :
    ∀ (a : Atom) {ns : Array Node}, KindsFrom K low ns → a.Yields K → a.Every (Item.Yields K) →
      KindsFrom K low (layoutAtom onward a ns)
  | .test _, _, h, ha, _ => h.push ha
  | .backref _, _, h, ha, _ => h.push ha
  | .group _ bs, _, h, ha, he => KindsFrom.layoutBranches bs ((h.push ha.1).push ha.2) he

theorem KindsFrom.layoutBranches {close : Nat} :
    ∀ (bs : List (List Item)) {ns : Array Node}, KindsFrom K low ns →
      Branches.Every (Item.Yields K) bs → KindsFrom K low (layoutBranches close bs ns)
  | [], _, h, _ => h
  | b :: bs, _, h, hb => KindsFrom.layoutBranches bs (KindsFrom.layoutBranch b h hb.1) hb.2

theorem KindsFrom.layoutBranch {close : Nat} :
    ∀ (b : List Item) {ns : Array Node}, KindsFrom K low ns → Branch.Every (Item.Yields K) b →
      KindsFrom K low (layoutBranch close b ns)
  | [], _, h, _ => h
  | .anchor _ :: rest, _, h, hb => KindsFrom.layoutBranch rest (h.push hb.1) hb.2
  | .atom a none :: rest, _, h, hb =>
    KindsFrom.layoutBranch rest (KindsFrom.layoutAtom a h hb.1.1 hb.2.1) hb.2.2
  | .atom a (some q) :: rest, _, h, hb =>
    KindsFrom.layoutBranch rest
      ((KindsFrom.layoutAtom a h hb.1.1 hb.2.1).append_layout (hb.1.2 q rfl) _ _ _) hb.2.2

end

/-- **Between its two ends a graph holds only nodes that the items of its pattern ask for.** -/
theorem Graph.kinds_ofPattern {p : Pattern} (hp : Branches.Every (Item.Yields K) p.branches) :
    KindsFrom K 2 (Graph.ofPattern p).nodes := by
  refine KindsFrom.layoutBranches p.branches (fun i nd hi h => ?_) hp
  rw [Array.getElem?_eq_none hi] at h
  cases h

theorem Graph.kind_ofPattern {p : Pattern} (hp : Branches.Every (Item.Yields K) p.branches)
    (ho : K (.groupOpen 0)) (ht : K .terminal) {i : Nat} {nd : Node}
    (h : (Graph.ofPattern p).nodes[i]? = some nd) : K nd.kind := by
  obtain ⟨hopen, hterminal, -⟩ := liesAt_ofPattern p
  match i, h with
  | 0, h => rw [hopen] at h; cases h; exact ho
  | 1, h => rw [hterminal] at h; cases h; exact ht
  | i + 2, h => exact Graph.kinds_ofPattern hp (i + 2) nd (Nat.le_add_left 2 i) h

end

end PatternGraph
