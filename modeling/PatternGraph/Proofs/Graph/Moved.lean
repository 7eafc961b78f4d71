import PatternGraph.Proofs.Graph.Placement
import PatternGraph.Proofs.Pattern.Surrounded

/-!
# Graphs inside others

Where a pattern stands in a longer one, its graph lies in the graph of that: its nodes have other
indices there, and its groups other numbers.

* `Node.renamed`: a node with other indices and numbers;
* `Moved`: nodes that have been moved `d` indices further on, **`Moved.branches`**: the layouts keep
  them so;
* `Graph.Encloses`: a pattern in parentheses and with bounds behind them, **`encloses_ofPattern`**.
-/

namespace PatternGraph

/-- What happens at a node when nodes have other indices and groups other numbers. -/
def NodeKind.renamed (index number : Nat → Nat) : NodeKind → NodeKind
  | .groupOpen k => .groupOpen (number k)
  | .groupClose k => .groupClose (number k)
  | .repetition b exit => .repetition b (index exit)
  | kind => kind

/-- A node when nodes have other indices and groups other numbers. -/
def Node.renamed (index number : Nat → Nat) (nd : Node) : Node :=
  ⟨nd.kind.renamed index number, nd.next.map index⟩

theorem NodeKind.renamed_ne_terminal {index number : Nat → Nat} {kind : NodeKind}
    (h : kind ≠ .terminal) : kind.renamed index number ≠ .terminal := by
  cases kind <;> simp_all [renamed]

theorem NodeKind.renamed_ne_repetition {index number : Nat → Nat} {kind : NodeKind}
    (h : ∀ b exit, kind ≠ .repetition b exit) (b : Bounds) (exit : Nat) :
    kind.renamed index number ≠ .repetition b exit := by
  cases kind <;> simp_all [renamed]

/-! ## Indices and successors -/

section

variable {number : Nat → Nat}

mutual

theorem Atom.after_renumber (d : Nat) : ∀ (a : Atom) (n : Nat),
    (a.renumber number).after (n + d) = a.after n + d
  | .test _, n => Nat.add_right_comm n d 1
  | .backref _, n => Nat.add_right_comm n d 1
  | .group _ bs, n => by
    rw [Atom.renumber, Atom.after, Nat.add_right_comm, Branches.after_renumber d bs, Atom.after]

theorem Branches.after_renumber (d : Nat) : ∀ (bs : List (List Item)) (n : Nat),
    Branches.after (Branches.renumber number bs) (n + d) = Branches.after bs n + d
  | [], _ => rfl
  | b :: bs, n => by
    rw [Branches.renumber, Branches.after, Branch.after_renumber d b n,
      Branches.after_renumber d bs, Branches.after]

theorem Branch.after_renumber (d : Nat) : ∀ (b : List Item) (n : Nat),
    Branch.after (Branch.renumber number b) (n + d) = Branch.after b n + d
  | [], _ => rfl
  | .anchor _ :: rest, n => by
    rw [Branch.renumber, Branch.after, Nat.add_right_comm, Branch.after_renumber d rest,
      Branch.after]
  | .atom a none :: rest, n => by
    rw [Branch.renumber, Branch.after, Atom.after_renumber d a n, Branch.after_renumber d rest,
      Branch.after]
  | .atom a (some q) :: rest, n => by
    rw [Branch.renumber, Branch.after, Atom.after_renumber d a n, Nat.add_right_comm,
      Branch.after_renumber d rest, Branch.after]

end

section

variable {index : Nat → Nat} {d n : Nat} (hindex : ∀ v, n ≤ v → index v = v + d)

include hindex

theorem entry_renumber (close : Nat) (b : Branch) :
    entry (index close) (Branch.renumber number b) (n + d) = (entry close b n).map index := by
  have hn := hindex n (Nat.le_refl n)
  match b with
  | [] => rfl
  | .anchor _ :: rest | .atom a none :: rest => exact congrArg ([·]) hn.symm
  | .atom a (some q) :: rest =>
    rw [Branch.renumber, entry, entry, Atom.after_renumber]
    split
    · rw [List.map_cons, List.map_singleton, hn, hindex _ (a.le_after n)]
    · rw [List.map_singleton, hn]

theorem Quantifier.onward_renamed (q : Quantifier) {m : Nat} (hm : n ≤ m) :
    q.onward (n + d) (m + d) = (q.onward n m).map index := by
  have hn := hindex n (Nat.le_refl n)
  have hjoin := hindex m hm
  have hcounter := hindex (m + 1) (Nat.le_succ_of_le hm)
  rw [Nat.add_right_comm] at hcounter
  cases q with
  | optional => rw [onward, onward, List.map_singleton, hjoin]
  | star | plus => rw [onward, onward, List.map_cons, List.map_singleton, hn, hjoin]
  | counted b => rw [onward, onward, List.map_singleton, hcounter]

theorem Quantifier.layout_renamed (q : Quantifier) {m : Nat} (hm : n ≤ m) (following : List Nat) :
    q.layout (n + d) (m + d) (following.map index) =
      (q.layout n m following).map (Node.renamed index number) := by
  have hn := hindex n (Nat.le_refl n)
  have hjoin := hindex m hm
  cases q with
  | optional | star | plus => rfl
  | counted b =>
    rw [layout, layout, ← hn, ← hjoin]
    rfl

end

theorem heads_renumber {index : Nat → Nat} {d : Nat} (close : Nat) (bs : Branches) : ∀ n : Nat,
    (∀ v, n ≤ v → index v = v + d) →
    heads (index close) (Branches.renumber number bs) (n + d) = (heads close bs n).map index := by
  induction bs with
  | nil => intro n _; rfl
  | cons b bs ih =>
    intro n hindex
    rw [Branches.renumber, heads_cons, heads_cons, List.map_append, entry_renumber hindex,
      Branch.after_renumber, ih _ fun v hv => hindex v (Nat.le_trans (Branch.le_after b n) hv)]

end

/-! ## Layouts -/

/-- All nodes of `ns` from index `low` on are in `ns'` as well, `d` indices further on, under other
indices and numbers. -/
structure Moved (index number : Nat → Nat) (low d : Nat) (ns ns' : Array Node) : Prop where
  low_le : low ≤ ns.size
  size : ns'.size = ns.size + d
  nodes : ∀ {v : Nat} {nd : Node}, low ≤ v → ns[v]? = some nd →
    ns'[v + d]? = some (nd.renamed index number)

namespace Moved

variable {index number : Nat → Nat} {low d : Nat} {ns ns' : Array Node}

/-- In front of what is moved there are two nodes, which may be others. -/
theorem ends (x y : Node) (hsize : ns'.size = 2 + d) : Moved index number 2 d #[x, y] ns' := by
  refine ⟨Nat.le_refl 2, hsize, fun {v nd} hv hn => ?_⟩
  rw [Array.getElem?_eq_none hv] at hn
  cases hn

theorem push (h : Moved index number low d ns ns') {nd nd' : Node}
    (hnd : nd' = nd.renamed index number) :
    Moved index number low d (ns.push nd) (ns'.push nd') := by
  subst hnd
  refine ⟨?_, ?_, fun {v x} hv hx => ?_⟩
  · rw [Array.size_push]
    exact Nat.le_succ_of_le h.low_le
  · rw [Array.size_push, Array.size_push, h.size, Nat.add_right_comm]
  · rw [Array.getElem?_push] at hx ⊢
    rw [h.size]
    by_cases hvs : v = ns.size
    · rw [if_pos hvs] at hx
      rw [if_pos (congrArg (· + d) hvs)]
      cases hx
      rfl
    · rw [if_neg hvs] at hx
      rw [if_neg (by omega)]
      exact h.nodes hv hx

theorem append (h : Moved index number low d ns ns') (added : List Node) :
    Moved index number low d (ns ++ added) (ns' ++ added.map (Node.renamed index number)) := by
  induction added generalizing ns ns' with
  | nil => rwa [List.map_nil, Array.appendList_nil, Array.appendList_nil]
  | cons nd added ih =>
    rw [List.map_cons, Array.appendList_cons, Array.appendList_cons]
    exact ih (h.push rfl)

theorem index_of_le (hindex : ∀ v, low ≤ v → index v = v + d)
    (h : Moved index number low d ns ns') {n v : Nat} (hn : ns.size ≤ n) (hv : n ≤ v) :
    index v = v + d :=
  hindex v (Nat.le_trans h.low_le (Nat.le_trans hn hv))

mutual

theorem atom (hindex : ∀ v, low ≤ v → index v = v + d) {onward : List Nat} :
    ∀ (a : Atom) {ns ns' : Array Node}, Moved index number low d ns ns' →
    Moved index number low d (layoutAtom onward a ns)
      (layoutAtom (onward.map index) (a.renumber number) ns')
  | .test _, _, _, h => h.push rfl
  | .backref _, _, _, h => h.push rfl
  | .group k bs, ns, ns', h => by
    have hclose := h.index_of_le hindex (Nat.le_succ ns.size) (Nat.le_refl _)
    rw [Atom.renumber, layoutAtom, layoutAtom, h.size, Nat.add_right_comm, ← hclose,
      Nat.add_right_comm ns.size d 2, heads_renumber _ _ _ fun v => h.index_of_le hindex (by omega)]
    exact branches hindex bs (Moved.push (h.push rfl) rfl)

theorem branches (hindex : ∀ v, low ≤ v → index v = v + d) {close : Nat} :
    ∀ (bs : List (List Item)) {ns ns' : Array Node}, Moved index number low d ns ns' →
    Moved index number low d (layoutBranches close bs ns)
      (layoutBranches (index close) (Branches.renumber number bs) ns')
  | [], _, _, h => h
  | b :: bs, _, _, h => branches hindex bs (branch hindex b h)

theorem branch (hindex : ∀ v, low ≤ v → index v = v + d) {close : Nat} :
    ∀ (b : List Item) {ns ns' : Array Node}, Moved index number low d ns ns' →
    Moved index number low d (layoutBranch close b ns)
      (layoutBranch (index close) (Branch.renumber number b) ns')
  | [], _, _, h => h
  | .anchor a :: rest, ns, ns', h => by
    rw [Branch.renumber, layoutBranch, layoutBranch, h.size, Nat.add_right_comm,
      entry_renumber fun v => h.index_of_le hindex (Nat.le_succ _)]
    exact branch hindex rest (h.push rfl)
  | .atom a none :: rest, ns, ns', h => by
    rw [Branch.renumber, layoutBranch, layoutBranch, h.size, Atom.after_renumber,
      entry_renumber fun v => h.index_of_le hindex (a.le_after _)]
    exact branch hindex rest (atom hindex a h)
  | .atom a (some q) :: rest, ns, ns', h => by
    have hafter := a.le_after ns.size
    rw [Branch.renumber, layoutBranch, layoutBranch, h.size, Atom.after_renumber,
      Nat.add_right_comm,
      entry_renumber fun v => h.index_of_le hindex (Nat.le_trans hafter (Nat.le_add_right _ _)),
      Quantifier.onward_renamed (fun v => h.index_of_le hindex (Nat.le_refl _)) q hafter,
      Quantifier.layout_renamed (fun v => h.index_of_le hindex (Nat.le_refl _)) q hafter]
    exact branch hindex rest ((atom hindex a h).append _)

end

end Moved

/-! ## Whole patterns -/

/-- The nodes of `g'` that lie around those of `g`, where a group that holds `g` is repeated as
often as the bounds say. -/
structure Graph.Encloses (g' g : Graph) (b : Bounds) : Prop where
  inner : g.start = 0 ∧ g.terminal = 1 ∧ g.nodes[1]? = some ⟨.terminal, []⟩
  start : g'.start = 0 ∧ ∃ next, g'.nodes[0]? = some ⟨.groupOpen 0, next⟩ ∧
    ∀ w, w ∈ next ↔ w = 2 ∨ b.min = 0 ∧ w = g.size + 2
  terminal : g'.terminal = 1 ∧ g'.nodes[1]? = some ⟨.terminal, []⟩
  close : g'.nodes[3]? = some ⟨.groupClose 1, [g.size + 3]⟩
  join : g'.nodes[g.size + 2]? = some ⟨.join, [1]⟩
  repetition : g'.nodes[g.size + 3]? = some ⟨.repetition b (g.size + 2), [2]⟩
  nodes : ∀ {v : Nat} {nd : Node}, v ≠ 1 → g.nodes[v]? = some nd →
    g'.nodes[v + 2]? = some (nd.renamed (· + 2) (· + 1))

/-- **The graph of a pattern in parentheses and with bounds goes round that of the pattern.** -/
theorem encloses_ofPattern (p : Pattern) (b : Bounds) :
    (Graph.ofPattern ⟨[[.atom (.group 1 (Branches.renumber (· + 1) p.branches))
      (some (.counted b))]], p.groups + 1⟩).Encloses (Graph.ofPattern p) b := by
  let group : Atom := .group 1 (Branches.renumber (· + 1) p.branches)
  let p' : Pattern := ⟨[[.atom group (some (.counted b))]], p.groups + 1⟩
  have hsize : (Graph.ofPattern p).size = Branches.after p.branches 2 :=
    size_layoutBranches 1 p.branches _
  have hafter : group.after 2 = (Graph.ofPattern p).size + 2 := by
    rw [hsize]
    exact Branches.after_renumber 2 p.branches 2
  obtain ⟨ho, ht, ⟨⟨hopen, hclose, -⟩, ⟨hjoin, hrep⟩, -⟩, -⟩ := liesAt_ofPattern p'
  rw [Quantifier.onward, hafter] at hclose
  rw [hafter] at hjoin hrep
  refine ⟨⟨rfl, rfl, (liesAt_ofPattern p).2.1⟩, ⟨rfl, _, ho, fun w => ?_⟩, ⟨rfl, ht⟩, hclose, hjoin,
    hrep, fun {v nd} hv hn => ?_⟩
  · rw [heads_cons, heads_nil, List.append_nil, entry, hafter, Quantifier.skips]
    by_cases hb : b.min = 0
    · simp [hb]
    · simp [hb]
  · have hindex : ∀ v, 2 ≤ v → (· + 2) v = v + 2 := fun _ _ => rfl
    rcases v with _ | _ | v
    · rw [(liesAt_ofPattern p).1] at hn
      cases hn
      have hheads : heads 3 (Branches.renumber (· + 1) p.branches) 4 =
          (heads 1 p.branches 2).map (· + 2) := heads_renumber 1 p.branches 2 hindex
      rw [hopen, hheads]
      rfl
    · exact absurd rfl hv
    · -- the nodes are laid out behind the two of the group
      let onward : List Nat := Quantifier.onward 2 (group.after 2) (.counted b)
      let ends : Array Node := #[⟨.groupOpen 0, heads 1 p'.branches 2⟩, ⟨.terminal, []⟩]
      have hmoved : Moved (· + 2) (· + 1) 2 2
          #[⟨.groupOpen 0, heads 1 p.branches 2⟩, ⟨.terminal, []⟩]
          ((ends.push ⟨.groupOpen 1, heads 3 (Branches.renumber (· + 1) p.branches) 4⟩).push
            ⟨.groupClose 1, onward⟩) := .ends _ _ rfl
      have hext := extends_append (Quantifier.layout 2 (group.after 2) [1] (.counted b))
        (layoutAtom onward group ends)
      exact hext _ _ ((hmoved.branches hindex p.branches).nodes (Nat.le_add_left 2 v) hn)

end PatternGraph
