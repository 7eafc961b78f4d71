import PatternGraph.Proofs.Graph.Placement

/-!
# Groups along the walks of a graph

Whatever way is taken through the graph of a pattern, groups are closed in the order opposite to
that in which they were opened, and the terminal is come to when only the whole match is open.

* `Node.onto`: where an edge leads, the way out of a repetition included;
* `NodeKind.nest`: what a node does to the groups that are open;
* `Balanced`: no walk of so many steps closes a group that is not the innermost open one;
* **`balanced_ofPattern`**: all walks from the start are balanced.
-/

namespace PatternGraph

/-- Where the edges of a node lead: to its successors, and out of a repetition. -/
def Node.onto (nd : Node) : List Nat :=
  match nd.kind with
  | .repetition _ exit => nd.next ++ [exit]
  | _ => nd.next

/-- The groups that are open behind a node, innermost first, if it may be come to at all. -/
def NodeKind.nest : NodeKind → List Nat → Option (List Nat)
  | .groupOpen k, opened => some (k :: opened)
  | .groupClose _, [] => none
  | .groupClose k, i :: opened => if i = k then some opened else none
  | .terminal, opened => if opened = [0] then some [] else none
  | _, opened => some opened

/-- On every walk of `steps` edges from the node, with these groups open, no group is closed that
is not the innermost open one. -/
def Balanced (ns : Array Node) : Nat → Nat → List Nat → Prop
  | 0, _, _ => True
  | steps + 1, node, opened => ∀ nd, ns[node]? = some nd →
    ∃ after, nd.kind.nest opened = some after ∧ ∀ m ∈ nd.onto, Balanced ns steps m after

section

variable {ns : Array Node} {opened : List Nat}

theorem balanced_of_node {node steps : Nat} {nd : Node} {after : List Nat}
    (hn : ns[node]? = some nd) (ha : nd.kind.nest opened = some after)
    (h : ∀ m ∈ nd.onto, Balanced ns steps m after) : Balanced ns (steps + 1) node opened := by
  intro x hx
  rw [hn] at hx
  cases hx
  exact ⟨after, ha, h⟩

theorem Balanced.of_succ : ∀ {steps node : Nat} {opened : List Nat},
    Balanced ns (steps + 1) node opened → Balanced ns steps node opened
  | 0, _, _, _ => trivial
  | _ + 1, _, _, h => fun nd hn =>
    let ⟨after, ha, hm⟩ := h nd hn
    ⟨after, ha, fun m hmem => (hm m hmem).of_succ⟩

theorem balanced_quantified {n m steps : Nat} {following : List Nat} {q : Quantifier}
    (hatom : ∀ k, (∀ i ∈ q.onward n m, Balanced ns k i opened) → Balanced ns (k + 1) n opened)
    (hq : q.LiesAt ns n m following) (hf : ∀ i ∈ following, Balanced ns steps i opened) :
    Balanced ns steps n opened ∧ Balanced ns steps m opened ∧
      ∀ bounds, q = .counted bounds → Balanced ns steps (m + 1) opened := by
  induction steps with
  | zero => exact ⟨trivial, trivial, fun _ _ => trivial⟩
  | succ k ih =>
    have hf' := fun i hi => (hf i hi).of_succ
    obtain ⟨hn, hm, hr⟩ := ih hf'
    cases q with
    | optional =>
      refine ⟨hatom k fun i hi => ?_, balanced_of_node hq rfl hf', fun _ h => by cases h⟩
      rw [List.mem_singleton.1 hi]; exact hm
    | star | plus =>
      refine ⟨hatom k fun i hi => ?_, balanced_of_node hq rfl hf', fun _ h => by cases h⟩
      rcases List.mem_pair.1 hi with rfl | rfl
      · exact hn
      · exact hm
    | counted bounds =>
      refine ⟨hatom k fun i hi => ?_, balanced_of_node hq.1 rfl hf', fun _ _ =>
        balanced_of_node hq.2 rfl fun i hi => ?_⟩
      · rw [List.mem_singleton.1 hi]; exact hr bounds rfl
      · rcases List.mem_pair.1 hi with rfl | rfl
        · exact hn
        · exact hm

mutual

theorem balanced_atom {onward : List Nat} : ∀ (a : Atom) (n steps : Nat) (opened : List Nat),
    a.LiesAt ns onward n → (∀ i ∈ onward, Balanced ns steps i opened) →
      Balanced ns (steps + 1) n opened
  | .test _, _, _, _, h, ho => balanced_of_node h rfl ho
  | .backref _, _, _, _, h, ho => balanced_of_node h rfl ho
  | .group k bs, n, steps, opened, h, ho => by
    refine balanced_of_node h.1 rfl (balanced_branches bs (n + 2) steps (k :: opened) h.2.2 ?_)
    cases steps with
    | zero => trivial
    | succ j => exact balanced_of_node h.2.1 (if_pos rfl) fun i hi => (ho i hi).of_succ

theorem balanced_branches {close : Nat} :
    ∀ (bs : List (List Item)) (n steps : Nat) (opened : List Nat), Branches.LieAt ns close bs n →
      Balanced ns steps close opened → ∀ i ∈ heads close bs n, Balanced ns steps i opened
  | [], _, _, _, _, _ => by simp
  | b :: bs, n, steps, opened, h, hc => by
    intro i hi
    rw [heads_cons] at hi
    rcases List.mem_append.1 hi with hi | hi
    · exact balanced_branch b n steps opened h.1 hc i hi
    · exact balanced_branches bs _ steps opened h.2 hc i hi

theorem balanced_branch {close : Nat} :
    ∀ (b : List Item) (n steps : Nat) (opened : List Nat), Branch.LiesAt ns close b n →
      Balanced ns steps close opened → ∀ i ∈ entry close b n, Balanced ns steps i opened
  | _, _, 0, _, _, _ => fun _ _ => trivial
  | [], _, _, _, _, hc => fun i hi => by rw [List.mem_singleton.1 hi]; exact hc
  | .anchor a :: rest, n, k + 1, opened, h, hc => fun i hi => by
    rw [List.mem_singleton.1 hi]
    exact balanced_of_node h.1 rfl (balanced_branch rest _ k opened h.2 hc.of_succ)
  | .atom a none :: rest, n, k + 1, opened, h, hc => fun i hi => by
    rw [List.mem_singleton.1 hi]
    exact balanced_atom a n k opened h.1 (balanced_branch rest _ k opened h.2 hc.of_succ)
  | .atom a (some q) :: rest, n, k + 1, opened, h, hc => fun i hi => by
    have hq := balanced_quantified (fun j => balanced_atom a n j opened h.1) h.2.1
      (balanced_branch rest _ (k + 1) opened h.2.2 hc)
    rcases mem_entry_of_quantified hi with rfl | ⟨-, rfl⟩
    · exact hq.1
    · exact hq.2.1

end

end

/-- **All walks from the start of a pattern's graph are balanced.** -/
theorem balanced_ofPattern (p : Pattern) (steps : Nat) :
    Balanced (Graph.ofPattern p).nodes steps 0 [] := by
  obtain ⟨ho, ht, hb⟩ := liesAt_ofPattern p
  have hterm : ∀ k, Balanced (Graph.ofPattern p).nodes k 1 [0] := fun k => by
    cases k with
    | zero => trivial
    | succ k => exact balanced_of_node ht rfl (by simp [Node.onto])
  cases steps with
  | zero => trivial
  | succ k => exact balanced_of_node ho rfl (balanced_branches p.branches 2 k [0] hb (hterm k))

end PatternGraph
