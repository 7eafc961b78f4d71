import PatternGraph.Proofs.Pattern.Surrounded

/-!
# Reading two patterns with a bar between them

* `numberBehind`: the numbers of groups behind others;
* `Pattern.either`: the branches of one pattern and behind them those of another;
* **`read_either`**: two patterns with a bar between them.
-/

namespace PatternGraph

/-- The number of a group of a pattern in front of which there are `n` groups. The whole match keeps
its own. -/
def numberBehind (n : Nat) : Nat → Nat
  | 0 => 0
  | k + 1 => n + k + 1

/-- The branches of the first pattern and behind them those of the second one. -/
def Pattern.either (p q : Pattern) : Pattern :=
  ⟨p.branches ++ Branches.renumber (numberBehind p.groups) q.branches, p.groups + q.groups⟩

/-- The first pattern stands in front of a bar. -/
def Surroundings.first (behind : List Char) : Surroundings where
  ahead := 0
  groups := 0
  number := id
  branches := []
  around := []
  tail := '|' :: behind
  number_succ k := by rw [Nat.zero_add, id]
  delimits _ hx := .inr (Option.some.inj hx).symm

/-- The second pattern stands behind a bar, in front of which `r` has been read. -/
def Surroundings.second (r : Reading) : Surroundings where
  ahead := r.cursor.offset + 1
  groups := r.groups
  number := numberBehind r.groups
  branches := r.scope.bar.branches
  around := r.opened
  tail := []
  number_succ _ := rfl
  delimits _ hx := by cases hx

/-- **With a bar between them two patterns are read as the branches of both**, the groups of the
second being counted on from those of the first. -/
theorem read_either {limits₁ limits₂ limits : Limits} {text₁ text₂ : List Char} {p q pq : Pattern}
    (hp : Pattern.read limits₁ text₁ = .ok p) (hq : Pattern.read limits₂ text₂ = .ok q)
    (hpq : Pattern.read limits (text₁ ++ '|' :: text₂) = .ok pq) : pq = p.either q := by
  obtain ⟨-, t₁, ht₁, ho₁, rfl⟩ := Pattern.read_eq_ok.1 hp
  obtain ⟨-, t₂, ht₂, ho₂, rfl⟩ := Pattern.read_eq_ok.1 hq
  obtain ⟨-, t, ht, -, rfl⟩ := Pattern.read_eq_ok.1 hpq
  -- the first pattern
  have hfirst : (Reading.ofList text₁).Inside (.first text₂)
      (Reading.ofList (text₁ ++ '|' :: text₂)) := ⟨rfl, rfl, rfl⟩
  obtain ⟨s, hs, hrest, ht⟩ := hfirst.toEnd ht₁ ht
  have hplace := hs.place
  rw [ho₁, Surroundings.place] at hplace
  obtain ⟨hscope, hopened⟩ := Prod.mk.inj hplace
  have hscope : s.scope = t₁.scope :=
    hscope.trans ((Scope.behind_nil _).trans (Scope.renumber_id _))
  have hgroups : s.groups = t₁.groups := hs.groups.trans (Nat.zero_add _)
  -- the bar
  obtain ⟨s', hs', ht⟩ := Reading.exists_next_of_toEnd ht hrest
  have hsecond : (Reading.ofList text₂).Inside (.second s) s' := by
    cases hs'
    exact ⟨congrArg (Cursor.mk · _) (List.append_nil text₂).symm, rfl, rfl⟩
  -- the second pattern
  obtain ⟨u, hu, hend, ht⟩ := hsecond.toEnd ht₂ ht
  obtain rfl := Reading.eq_of_toEnd ht hend
  have hplace := hu.place
  rw [ho₂, Surroundings.place] at hplace
  have hbody : t.scope.body =
      t₁.scope.body ++ Branches.renumber (numberBehind t₁.groups) t₂.scope.body := by
    rw [(Prod.mk.inj hplace).1, Scope.body_behind, Scope.renumber_body]
    show s.scope.body ++ (t₂.scope.renumber (numberBehind s.groups)).body = _
    rw [hscope, hgroups]
  rw [Pattern.either, hbody, hu.groups]
  show Pattern.mk _ (s.groups + t₂.groups) = _
  rw [hgroups]

end PatternGraph
