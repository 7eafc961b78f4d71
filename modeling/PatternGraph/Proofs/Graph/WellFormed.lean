import PatternGraph.Proofs.Graph.Fits
import PatternGraph.Proofs.Graph.Nesting

/-!
# Graphs that are well formed

* `Graph.WellFormed`: the two ends of a graph, what its edges lead to, which nodes it holds, and how
  groups are nested along its walks;
* `next_eq_nil_iff`: only the terminal leads nowhere;
* **`wellFormed_of_compile`**: every graph that is compiled is well formed.
-/

namespace PatternGraph

/-- What all graphs of patterns have in common. Edges are those to the successors of a node and out
of a repetition. -/
structure Graph.WellFormed (g : Graph) : Prop where
  start : g.start = 0
  terminal : g.terminal = 1
  /-- Edges lead to nodes. -/
  edges : ∀ v w, Edge g.nodes v w → w < g.size
  /-- Every group and the whole match begins at one node. -/
  groupOpen : ∀ k ≤ g.groups, OccursOnce g.nodes (.groupOpen k)
  /-- Every group ends at one node. -/
  groupClose : ∀ k, 1 ≤ k → k ≤ g.groups → OccursOnce g.nodes (.groupClose k)
  /-- The whole match ends at one node. -/
  ends : OccursOnce g.nodes .terminal
  /-- There are no nodes of other groups, and no references to them. -/
  groups : ∀ (v : Nat) (nd : Node), g.nodes[v]? = some nd → nd.kind.Fits g.groups
  /-- One can go on from all nodes but the terminal. -/
  next : ∀ (v : Nat) (nd : Node), g.nodes[v]? = some nd → (nd.next = [] ↔ nd.kind = .terminal)
  /-- No edge leads back to the start. -/
  fromStart : ∀ v, ¬ Edge g.nodes v g.start
  reached : ∀ v < g.size, Reachable g.nodes g.start v
  reaches : ∀ v < g.size, Reachable g.nodes v g.terminal
  /-- The brackets along a walk are the beginning of a balanced sequence, in which no group is
  inside itself. -/
  nested : ∀ walk, (g.start :: walk).IsChain (Edge g.nodes) →
    ∃ rest, Nested [] (brackets g.nodes (g.start :: walk) ++ rest)

section

variable {p : Pattern}

/-- **Only the terminal has no successor.** -/
theorem next_eq_nil_iff (hfits : (Graph.ofPattern p).Fits) {v : Nat} {nd : Node}
    (hn : (Graph.ofPattern p).nodes[v]? = some nd)
    (hreach : Reachable (Graph.ofPattern p).nodes v 1) : nd.next = [] ↔ nd.kind = .terminal := by
  constructor
  · intro hnil
    rcases Relation.ReflTransGen.cases_head hreach with rfl | ⟨w, ⟨nd', hn', hw⟩, -⟩
    · rw [(liesAt_ofPattern p).2.1] at hn
      cases hn
      rfl
    · rw [hn] at hn'
      cases hn'
      obtain ⟨kind, next⟩ := nd
      obtain rfl : next = [] := hnil
      cases kind with
      | repetition b exit =>
        obtain ⟨n, a, -, -, -, b', hr⟩ := hasBody_ofPattern hn
        rw [hn] at hr
        cases hr
      | test t | join | groupOpen k | groupClose k | terminal | backref k | anchor a => cases hw
  · intro hk
    obtain rfl := hfits.terminal v nd hn hk
    have ht : (Graph.ofPattern p).nodes[(Graph.ofPattern p).terminal]? = some ⟨.terminal, []⟩ :=
      hfits.nodes_terminal
    rw [hn] at ht
    cases ht
    rfl

theorem eq_of_groupOpen (hfits : (Graph.ofPattern p).Fits)
    (hp : Branches.numbers p.branches = List.range' 1 p.groups) {k u v : Nat} {next next' : List Nat}
    (hu : (Graph.ofPattern p).nodes[u]? = some ⟨.groupOpen k, next⟩)
    (hv : (Graph.ofPattern p).nodes[v]? = some ⟨.groupOpen k, next'⟩) : u = v :=
  (occursOnce_groupOpen hp (hfits.kinds u _ hu)).unique ⟨next, hu⟩ ⟨next', hv⟩

theorem Graph.wellFormed_ofPattern (hfits : (Graph.ofPattern p).Fits)
    (hp : Branches.numbers p.branches = List.range' 1 p.groups)
    (hfilled : Branches.Every Item.Filled p.branches) (hne : p.branches ≠ []) :
    (Graph.ofPattern p).WellFormed := by
  obtain ⟨ho, ht, -⟩ := liesAt_ofPattern p
  have hreach := fun {v} (hv : v < (Graph.ofPattern p).size) => reachable_ofPattern hne hfilled hv
  have hedges : ∀ v w, Edge (Graph.ofPattern p).nodes v w → w < (Graph.ofPattern p).size := by
    rintro v w ⟨nd, hn, hw⟩
    exact onto_lt_size hn hw
  refine {
    start := rfl
    terminal := rfl
    edges := hedges
    groupOpen := fun k hk => occursOnce_groupOpen hp hk
    groupClose := fun k hpos hk => occursOnce_groupClose hp hpos hk
    ends := ⟨1, ⟨[], ht⟩, fun v ⟨next, hv⟩ => hfits.terminal v _ hv rfl⟩
    groups := hfits.kinds
    next := fun v nd hn =>
      next_eq_nil_iff hfits hn (hreach (Array.getElem?_eq_some_iff.1 hn).1).2
    fromStart := ?_
    reached := fun v hv => (hreach hv).1
    reaches := fun v hv => (hreach hv).2
    nested := fun walk hwalk => ?_ }
  · rintro v ⟨nd, hn, hw⟩
    rcases stays_ofPattern hn hw with h | h
    · exact absurd h Nat.zero_ne_one
    · exact Nat.not_succ_le_zero 1 h.1
  · exact nested_of_walk ht (fun v hv => (hreach hv).2) (eq_of_groupOpen hfits hp) walk 0 []
      (Nat.lt_of_succ_lt (Graph.one_lt_size_ofPattern p)) hwalk hedges (openedInTurn_nil _)
      (balanced_ofPattern p)

end

theorem wellFormed_of_read {limits : Limits} {text : List Char} {p : Pattern}
    (h : Pattern.read limits text = .ok p) : (Graph.ofPattern p).WellFormed := by
  obtain ⟨hfilled, hne⟩ := filled_of_read h
  exact Graph.wellFormed_ofPattern (Graph.fits_ofPattern (fits_of_read h)) (numbers_of_read h)
    hfilled hne

/-- **Every graph that is compiled is well formed.** -/
theorem wellFormed_of_compile {limits : Limits} {pattern : String} {g : Graph}
    (h : compile limits pattern = .ok g) : g.WellFormed := by
  have hfits := fits_of_compile h
  obtain ⟨p, hp, rfl⟩ := exists_read_of_compile h
  obtain ⟨hfilled, hne⟩ := filled_of_read hp
  exact Graph.wellFormed_ofPattern hfits (numbers_of_read hp) hfilled hne

/-- The graph of `(a?|\1){2,}`, with a loop, an edge around an atom and a reference inside the group
it refers to. -/
theorem wellFormed_of_compile_loop : ∃ g, compile {} "(a?|\\1){2,}" = .ok g ∧ g.WellFormed := by
  have hc : compile {} "(a?|\\1){2,}" = .ok (Graph.ofPattern ⟨[[.atom (.group 1
      [[.atom (.test (.literal 'a')) (some .optional)], [.atom (.backref 1) none]])
      (some (.counted ⟨2, none⟩))]], 1⟩) := by decide +kernel
  exact ⟨_, hc, wellFormed_of_compile hc⟩

end PatternGraph
