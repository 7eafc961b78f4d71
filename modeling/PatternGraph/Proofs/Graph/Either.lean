import PatternGraph.Proofs.Graph.Fits
import PatternGraph.Proofs.Graph.Moved
import PatternGraph.Proofs.Pattern.Either
import PatternGraph.Proofs.Semantics.Language

/-!
# The graph of two patterns with a bar between them

The graphs of both patterns lie in the graph of the two, between the same two ends. The nodes of the
first one have the indices that they have by themselves, those of the second one come behind them.

* `Renaming`, `Graph.PartOf`: a graph lies in a larger one, but for its start;
* `Renaming.behind`: what comes behind the nodes and groups of a pattern;
* **`start_either`**: the ways into the first pattern come before those into the second;
* **`partOf_either_first`**, **`partOf_either_second`**: both graphs are parts.
-/

namespace PatternGraph

/-- Other indices for the nodes of a graph, and other numbers for its groups. The whole match keeps
its number. -/
structure Renaming where
  groups : Nat
  index : Nat → Nat
  number : Nat → Nat
  index_injective : Function.Injective index
  number_injective : Function.Injective number
  number_zero : number 0 = 0

/-- But for its start, `g` lies in `g'` under other indices and numbers. A group to which `g` refers
back keeps its number. -/
structure Graph.PartOf (g g' : Graph) (ρ : Renaming) : Prop where
  groups : g.groups = ρ.groups
  start : ρ.index g.start = g'.start
  nodes : ∀ {v : Nat} {nd : Node}, v ≠ g.start → g.nodes[v]? = some nd →
    g'.nodes[ρ.index v]? = some (nd.renamed ρ.index ρ.number)
  backref : ∀ {v k : Nat} {next : List Nat}, g.nodes[v]? = some ⟨.backref k, next⟩ → ρ.number k = k

/-! ## Indices and numbers behind others -/

/-- The index of a node where the nodes between the ends come behind `d` others. -/
def indexBehind (d : Nat) : Nat → Nat
  | 0 => 0
  | 1 => 1
  | v + 2 => v + 2 + d

theorem indexBehind_of_le (d : Nat) : ∀ v, 2 ≤ v → indexBehind d v = v + d
  | _ + 2, _ => rfl

theorem indexBehind_injective (d : Nat) : Function.Injective (indexBehind d) := by
  intro v w h
  rcases v with _ | _ | v <;> rcases w with _ | _ | w <;> simp only [indexBehind] at h <;> omega

theorem numberBehind_injective (n : Nat) : Function.Injective (numberBehind n) := by
  intro j k h
  cases j <;> cases k <;> simp only [numberBehind] at h <;> omega

/-- The number of nodes of a pattern between its two ends. -/
def Pattern.inner (p : Pattern) : Nat := Branches.after p.branches 2 - 2

theorem Pattern.after_branches (p : Pattern) : Branches.after p.branches 2 = 2 + p.inner := by
  have h := Branches.le_after p.branches 2
  rw [inner]
  omega

/-- Everything as it is. -/
def Renaming.same (groups : Nat) : Renaming :=
  ⟨groups, id, id, Function.injective_id, Function.injective_id, rfl⟩

/-- Nodes and groups come behind those of the pattern `p`. -/
def Renaming.behind (p : Pattern) (groups : Nat) : Renaming :=
  ⟨groups, indexBehind p.inner, numberBehind p.groups, indexBehind_injective _,
    numberBehind_injective _, rfl⟩

/-! ## Both graphs -/

theorem layoutBranches_append (close : Nat) (bs bs' : Branches) (ns : Array Node) :
    layoutBranches close (bs ++ bs') ns =
      layoutBranches close bs' (layoutBranches close bs ns) := by
  induction bs generalizing ns with
  | nil => rw [List.nil_append, layoutBranches]
  | cons b bs ih => rw [List.cons_append, layoutBranches, layoutBranches, ih]

section

variable (p q : Pattern)

/-- **The ways into the first pattern come before those into the second.** -/
theorem start_either : (Graph.ofPattern (p.either q)).nodes[0]? = some ⟨.groupOpen 0,
    heads 1 p.branches 2 ++ (heads 1 q.branches 2).map (indexBehind p.inner)⟩ := by
  have hsecond : heads 1 (Branches.renumber (numberBehind p.groups) q.branches) (2 + p.inner) =
      (heads 1 q.branches 2).map (indexBehind p.inner) :=
    heads_renumber 1 q.branches 2 (indexBehind_of_le _)
  rw [(liesAt_ofPattern (p.either q)).1, Pattern.either, heads_append, p.after_branches, hsecond]

/-- **The first pattern lies in the graph as it lies in its own.** -/
theorem partOf_either_first :
    (Graph.ofPattern p).PartOf (Graph.ofPattern (p.either q)) (.same p.groups) := by
  refine ⟨rfl, rfl, fun {v nd} hv hn => ?_, fun _ => rfl⟩
  rcases v with _ | _ | v
  · exact absurd rfl hv
  · rw [(liesAt_ofPattern p).2.1] at hn
    cases hn
    exact (liesAt_ofPattern (p.either q)).2.1
  · have hindex : ∀ v, 2 ≤ v → id v = v + 0 := fun _ _ => rfl
    have hends : Moved id id 2 0 #[⟨.groupOpen 0, heads 1 p.branches 2⟩, ⟨.terminal, []⟩]
        #[⟨.groupOpen 0, heads 1 (p.either q).branches 2⟩, ⟨.terminal, []⟩] := .ends _ _ rfl
    have hmoved := (hends.branches hindex p.branches).nodes (Nat.le_add_left 2 v) hn
    rw [Branches.renumber_id] at hmoved
    show (layoutBranches 1 (p.branches ++ _) _)[v + 2]? = _
    rw [layoutBranches_append]
    exact extends_layoutBranches _ _ _ _ _ hmoved

/-- **The second pattern lies behind the first**, if it does not refer back to a group. -/
theorem partOf_either_second (hregular : Branches.Every Item.Regular q.branches) :
    (Graph.ofPattern q).PartOf (Graph.ofPattern (p.either q)) (.behind p q.groups) := by
  refine ⟨rfl, rfl, fun {v nd} hv hn => ?_,
    fun hn => absurd rfl (Graph.plain_ofPattern hregular _ _ hn _)⟩
  rcases v with _ | _ | v
  · exact absurd rfl hv
  · rw [(liesAt_ofPattern q).2.1] at hn
    cases hn
    exact (liesAt_ofPattern (p.either q)).2.1
  · let ns : Array Node := layoutBranches 1 p.branches
      #[⟨.groupOpen 0, heads 1 (p.either q).branches 2⟩, ⟨.terminal, []⟩]
    have hsize : ns.size = 2 + p.inner :=
      (size_layoutBranches 1 p.branches _).trans p.after_branches
    have hends : Moved (indexBehind p.inner) (numberBehind p.groups) 2 p.inner
        #[⟨.groupOpen 0, heads 1 q.branches 2⟩, ⟨.terminal, []⟩] ns := .ends _ _ hsize
    show (layoutBranches 1 (p.branches ++ _) _)[v + 2 + p.inner]? = _
    rw [layoutBranches_append]
    exact (hends.branches (indexBehind_of_le _) q.branches).nodes (Nat.le_add_left 2 v) hn

end

end PatternGraph
