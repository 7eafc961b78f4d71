import PatternGraph.Regex
import PatternGraph.Proofs.Graph.Balance

/-!
# What the graph of a pattern promises to a search

* `NodeKind.Fits`: groups and bounds are within what a state has room for;
* `Graph.Fits`: that, one terminal node, and walks that are balanced;
* **`fits_of_compile`**: every graph that is compiled fits.
-/

namespace PatternGraph

/-- The group is one of those there is room for, the passes can be counted. -/
def NodeKind.Fits (groups : Nat) : NodeKind → Prop
  | .groupOpen k => k ≤ groups
  | .groupClose k => k ≤ groups
  | .backref k => k ≤ groups
  | .repetition bounds _ => bounds.Fit
  | _ => True

/-- A graph in which every node has what it needs, one node is the terminal, and groups are closed
as they were opened, on every walk from the start. -/
structure Graph.Fits (g : Graph) : Prop where
  kinds : ∀ (i : Nat) (nd : Node), g.nodes[i]? = some nd → nd.kind.Fits g.groups
  terminal : ∀ (i : Nat) (nd : Node), g.nodes[i]? = some nd → nd.kind = .terminal → i = g.terminal
  nodes_terminal : g.nodes[g.terminal]? = some ⟨.terminal, []⟩
  balanced : ∀ steps, Balanced g.nodes steps g.start []

section

variable {p : Pattern}

theorem yields_of_fits {K : NodeKind → Prop} {groups : Nat} {item : Item} (h : item.Fits groups)
    (hj : K .join) (ha : ∀ a, K (.anchor a)) (ht : ∀ t, K (.test t))
    (hg : ∀ k ≤ groups, K (.groupOpen k) ∧ K (.groupClose k) ∧ K (.backref k))
    (hr : ∀ bounds : Bounds, bounds.Fit → ∀ exit, K (.repetition bounds exit)) :
    item.Yields K := by
  cases item with
  | anchor a => exact ha a
  | atom a q =>
    refine ⟨?_, fun x hx => ?_⟩
    · cases a with
      | test t => exact ht t
      | backref k => exact (hg k h.1).2.2
      | group k bs => exact ⟨(hg k h.1).1, (hg k h.1).2.1⟩
    · cases x with
      | optional | star | plus => exact hj
      | counted bounds => exact ⟨hj, hr bounds (h.2 _ hx)⟩

theorem kinds_of_fits (K : NodeKind → Prop) (hp : Branches.Every (Item.Fits p.groups) p.branches)
    (hj : K .join) (ha : ∀ a, K (.anchor a)) (ht : ∀ t, K (.test t))
    (hg : ∀ k ≤ p.groups, K (.groupOpen k) ∧ K (.groupClose k) ∧ K (.backref k))
    (hr : ∀ bounds : Bounds, bounds.Fit → ∀ exit, K (.repetition bounds exit)) :
    KindsFrom K 2 (Graph.ofPattern p).nodes :=
  Graph.kinds_ofPattern (hp.mono fun _ h => yields_of_fits h hj ha ht hg hr)

theorem Graph.fits_ofPattern (hp : Branches.Every (Item.Fits p.groups) p.branches) :
    (Graph.ofPattern p).Fits := by
  obtain ⟨ho, ht, -⟩ := liesAt_ofPattern p
  have hkinds := kinds_of_fits (NodeKind.Fits p.groups) hp trivial (fun _ => trivial)
    (fun _ => trivial) (fun k hk => ⟨hk, hk, hk⟩) fun _ h _ => h
  have hterm := kinds_of_fits (· ≠ .terminal) hp (by simp) (by simp) (by simp) (by simp) (by simp)
  -- the two ends are looked at by their index
  have hends : ∀ {i : Nat} {nd : Node}, (Graph.ofPattern p).nodes[i]? = some nd →
      (i = 0 ∧ nd = ⟨.groupOpen 0, heads 1 p.branches 2⟩) ∨ (i = 1 ∧ nd = ⟨.terminal, []⟩) ∨
        2 ≤ i := by
    intro i nd h
    match i, h with
    | 0, h => rw [ho] at h; cases h; exact .inl ⟨rfl, rfl⟩
    | 1, h => rw [ht] at h; cases h; exact .inr (.inl ⟨rfl, rfl⟩)
    | i + 2, _ => exact .inr (.inr (by omega))
  refine ⟨fun i nd h => ?_, fun i nd h hk => ?_, ht, balanced_ofPattern p⟩
  · rcases hends h with ⟨-, rfl⟩ | ⟨-, rfl⟩ | hi
    · exact Nat.zero_le _
    · trivial
    · exact hkinds i nd hi h
  · rcases hends h with ⟨-, rfl⟩ | ⟨rfl, -⟩ | hi
    · simp at hk
    · rfl
    · exact absurd hk (hterm i nd hi h)

theorem exists_read_of_compile {limits : Limits} {pattern : String} {g : Graph}
    (h : compile limits pattern = .ok g) :
    ∃ p, Pattern.read limits pattern.toList = .ok p ∧ g = Graph.ofPattern p := by
  unfold compile at h
  split at h
  · simp at h
  · next p hp => cases h; exact ⟨p, hp, rfl⟩

theorem exists_read_of_build {limits : Limits} {pattern : String} {r : Regex}
    (hr : RegexBuilder.build ⟨pattern, limits⟩ = .ok r) :
    ∃ p, Pattern.read limits pattern.toList = .ok p ∧ r = ⟨pattern, Graph.ofPattern p⟩ := by
  unfold RegexBuilder.build at hr
  split at hr
  · simp at hr
  · next g hg =>
    cases hr
    obtain ⟨p, hp, rfl⟩ := exists_read_of_compile hg
    exact ⟨p, hp, rfl⟩

theorem eq_of_build {limits : Limits} {pattern : String} {r : Regex} {p : Pattern}
    (hr : RegexBuilder.build ⟨pattern, limits⟩ = .ok r)
    (hp : Pattern.read limits pattern.toList = .ok p) : r = ⟨pattern, Graph.ofPattern p⟩ := by
  obtain ⟨p', hp', rfl⟩ := exists_read_of_build hr
  rw [hp] at hp'
  cases hp'
  rfl

/-- **Every graph that is compiled fits.** -/
theorem fits_of_compile {limits : Limits} {pattern : String} {g : Graph}
    (h : compile limits pattern = .ok g) : g.Fits := by
  obtain ⟨p, hp, rfl⟩ := exists_read_of_compile h
  exact Graph.fits_ofPattern (fits_of_read hp)

end

end PatternGraph
