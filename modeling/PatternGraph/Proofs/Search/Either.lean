import PatternGraph.Proofs.Search.CaptureTable
import PatternGraph.Proofs.Search.Part

/-!
# Searching for one of two patterns

Two patterns with a bar between them are tried one after the other. The ways into the first one are
all tried before those into the second, and a first pattern that has failed leaves nothing behind.

* `Pattern.found?`: what the recursion finds for a pattern, **`captures?_eq_found?`**: the captures
  of a match;
* **`found?_either`**: what is found for the first pattern, or else for the second;
* **`captures?_either`**: the captures of a match are those of the first pattern that matches.
-/

namespace PatternGraph

/-! ## What is found for a pattern -/

/-- The latest instance of a group, if it is finished. -/
def Memory.group? (mem : Memory) (k : Nat) : Option Span :=
  (mem.captures k).head?.filter (·.isDefined)

theorem Mirrors.group? {g : Graph} {st : State} {mem : Memory} (h : Mirrors g st mem) {k : Nat}
    (hk : k ≤ g.groups) : st.group? k = mem.group? k := by
  rw [State.group?, h.latest? hk, Memory.group?]

/-- What the recursion finds for a pattern. -/
def Pattern.found? (p : Pattern) (subject : String) : Option Attempt :=
  PatternGraph.found? (tryMatch (Graph.ofPattern p) subject.toList.toArray ⟨0, 0⟩ .initial)

/-- The captures of a match that has been found. -/
def Captures.ofFound (subject : String) (groups : Nat) (out : Attempt) : Captures :=
  .ofSpans subject ((List.range (groups + 1)).map out.memory.group?)

theorem Captures.span?_ofFound (subject : String) (groups : Nat) (out : Attempt) (k : Nat) :
    (Captures.ofFound subject groups out).span? k =
      if k ≤ groups then out.memory.group? k else none := by
  rw [span?, ofFound, ofSpans, List.getElem?_toArray, List.getElem?_map]
  by_cases hk : k ≤ groups
  · rw [if_pos hk, List.getElem?_range (Nat.lt_succ_of_le hk)]
    rfl
  · rw [if_neg hk, List.getElem?_eq_none (by rw [List.length_range]; omega)]
    rfl

section

variable {limits : Limits} {text : List Char} {p : Pattern} (hp : Pattern.read limits text = .ok p)

include hp

theorem descend_rel_found? (subject : String) :
    Option.Rel (fun (st : State) (out : Attempt) => Mirrors (Graph.ofPattern p) st out.memory)
      (Visit.descend (Graph.ofPattern p) subject.toList.toArray
        ⟨(Graph.ofPattern p).start, 0,
          .initial (Graph.ofPattern p).size (Graph.ofPattern p).groups⟩)
      (p.found? subject) :=
  descend_start_rel_tryMatch (Graph.fits_ofPattern (fits_of_read hp)) subject.toList.toArray

/-- **A pattern matches if something is found for it.** -/
theorem isMatch_eq_found? (pattern subject : String) :
    Regex.isMatch ⟨pattern, Graph.ofPattern p⟩ subject = (p.found? subject).isSome := by
  have hrel := descend_rel_found? hp subject
  simp only [Regex.isMatch, Regex.matcher, Matcher.run, Matcher.ofGraph, search_eq_descend]
  generalize Visit.descend (Graph.ofPattern p) _ _ = reached at hrel ⊢
  generalize p.found? subject = found at hrel ⊢
  cases hrel <;> rfl

/-- **The captures of a match are those that have been found.** -/
theorem captures?_eq_found? (pattern subject : String) :
    Regex.captures? ⟨pattern, Graph.ofPattern p⟩ subject =
      (p.found? subject).map (.ofFound subject p.groups) := by
  have hrel := descend_rel_found? hp subject
  simp only [Regex.captures?, Regex.matcher, Matcher.run, Matcher.ofGraph, search_eq_descend]
  generalize Visit.descend (Graph.ofPattern p) _ _ = reached at hrel ⊢
  generalize p.found? subject = found at hrel ⊢
  cases hrel with
  | none => rfl
  | @some st out hm =>
    refine congrArg (fun spans => some (Captures.ofSpans subject spans)) ?_
    exact List.map_congr_left fun k hk => hm.group? (Nat.le_of_lt_succ (List.mem_range.1 hk))

theorem group?_zero_of_found? {subject : String} {out : Attempt} (h : p.found? subject = some out) :
    out.memory.group? 0 = some ⟨some 0, some subject.length⟩ := by
  have hw := wellFormed_of_read hp
  have hrel := descend_rel_found? hp subject
  have hsearch := search_eq_descend (Graph.ofPattern p) subject.toList.toArray
  rw [h] at hrel
  generalize Visit.descend (Graph.ofPattern p) _ _ = reached at hrel hsearch
  cases hrel with
  | @some st _ hm =>
    obtain ⟨passed, mem, hpasses, hmirrors, -⟩ :=
      exists_passes_of_search hw (Graph.fits_ofPattern (fits_of_read hp)) hsearch
    have hzero : (mem.closeGroup 0 subject.toList.toArray.size).captures 0 = _ :=
      Passes.captures_zero hw (numbers_of_read hp) hpasses
    have hlength : subject.toList.toArray.size = subject.length := by
      rw [List.size_toArray, String.length_toList]
    rw [← hm.group? (Nat.zero_le _), hmirrors.group? (Nat.zero_le _), Memory.group?, hzero, hlength]
    rfl

end

/-! ## Parts -/

section

variable {ρ : Renaming} {mem mem' : Memory}

theorem Memory.Covers.group? (h : mem'.Covers ρ mem) (k : Nat) :
    mem'.group? (ρ.number k) = mem.group? k := by
  rw [Memory.group?, Memory.group?, h.captures]

theorem Memory.Covers.group?_eq_none (h : mem'.Covers ρ mem) {k : Nat}
    (hk : ∀ j ≤ ρ.groups, ρ.number j ≠ k) : mem'.group? k = none := by
  rw [Memory.group?, h.others k hk]
  rfl

end

/-! ## Two patterns -/

section

variable {p q : Pattern} {subject : String} {groups : Nat} {out out' : Attempt}

/-- **What is found for two patterns is what is found for the first one, or else for the
second.** -/
theorem found?_either (hp : (Graph.ofPattern p).WellFormed) (hq : (Graph.ofPattern q).WellFormed)
    (hregular : Branches.Every Item.Regular q.branches) (subject : String) : ∃ first second,
    FoundAlike (.same p.groups) (p.found? subject) first ∧
      FoundAlike (.behind p q.groups) (q.found? subject) second ∧
      (p.either q).found? subject = first.or second := by
  refine ⟨_, _, found?_start_part (partOf_either_first p q) hp (liesAt_ofPattern p).1,
    found?_start_part (partOf_either_second p q hregular) hq (liesAt_ofPattern q).1, ?_⟩
  rw [Pattern.found?, tryMatch_of_effect (start_either p q) (by simp) (by simp)
    ⟨Nat.zero_le _, Finset.notMem_empty _⟩, found?_elim]
  show tryMoves _ _ _ _ (places (_ ++ _) 0 _) = _
  rw [tryMoves, places, List.map_append, List.findSome?_append]
  show _ = Option.or (List.findSome? _ (places ((heads 1 p.branches 2).map id) _ _)) _
  rw [List.map_id]
  rfl

theorem span?_of_first (h : out'.memory.Covers (.same p.groups) out.memory) :
    (∀ k ≤ p.groups, (Captures.ofFound subject (p.groups + groups) out').span? k =
      (Captures.ofFound subject p.groups out).span? k) ∧
    ∀ k, p.groups < k → (Captures.ofFound subject (p.groups + groups) out').span? k = none := by
  refine ⟨fun k hk => ?_, fun k hk => ?_⟩
  · rw [Captures.span?_ofFound, Captures.span?_ofFound, if_pos hk,
      if_pos (Nat.le_trans hk (Nat.le_add_right _ _))]
    exact h.group? k
  · rw [Captures.span?_ofFound, ite_eq_right_iff]
    exact fun _ => h.group?_eq_none fun j hj => Nat.ne_of_lt (Nat.lt_of_le_of_lt hj hk)

theorem span?_of_second (h : out'.memory.Covers (.behind p groups) out.memory) :
    (∀ k, 1 ≤ k → k ≤ p.groups →
      (Captures.ofFound subject (p.groups + groups) out').span? k = none) ∧
    ∀ k, 1 ≤ k → (Captures.ofFound subject (p.groups + groups) out').span? (p.groups + k) =
      (Captures.ofFound subject groups out).span? k := by
  refine ⟨fun k hpos hk => ?_, fun k hpos => ?_⟩
  · rw [Captures.span?_ofFound, ite_eq_right_iff]
    refine fun _ => h.group?_eq_none fun j _ => ?_
    cases j with
    | zero => exact Nat.ne_of_lt hpos
    | succ j => exact Nat.ne_of_gt (Nat.lt_succ_of_le (Nat.le_trans hk (Nat.le_add_right _ j)))
  · obtain ⟨k, rfl⟩ := Nat.exists_eq_add_of_le' hpos
    rw [Captures.span?_ofFound, Captures.span?_ofFound]
    by_cases hk : k + 1 ≤ groups
    · rw [if_pos hk, if_pos (Nat.add_le_add_left hk _)]
      exact h.group? (k + 1)
    · rw [if_neg hk, if_neg (fun hle => hk (Nat.le_of_add_le_add_left hle))]

end

/-- **The first pattern that matches counts, with its captures.** Two patterns with a bar between
them, the second of which does not refer back to a group, match what one of them matches. If the
first one does, all of its groups have the spans that they have there, and those of the second have
none. If only the second one does, the whole match is the whole subject, the groups of the first
have no spans, and those of the second, which are counted on from there, have the spans that they
have there. -/
theorem captures?_either {limits₁ limits₂ limits : Limits} {first second : String}
    {r₁ r₂ r : Regex} {q : Pattern} (hr₁ : RegexBuilder.build ⟨first, limits₁⟩ = .ok r₁)
    (hr₂ : RegexBuilder.build ⟨second, limits₂⟩ = .ok r₂)
    (hq : Pattern.read limits₂ second.toList = .ok q)
    (hregular : Branches.Every Item.Regular q.branches)
    (hr : RegexBuilder.build ⟨first ++ "|" ++ second, limits⟩ = .ok r) (subject : String) :
    r.groups = r₁.groups + r₂.groups ∧
    r.isMatch subject = (r₁.isMatch subject || r₂.isMatch subject) ∧
    (r₁.isMatch subject = true → ∃ c₁ c, r₁.captures? subject = some c₁ ∧
      r.captures? subject = some c ∧ (∀ k ≤ r₁.groups, c.span? k = c₁.span? k) ∧
      ∀ k, r₁.groups < k → c.span? k = none) ∧
    (r₁.isMatch subject = false → r₂.isMatch subject = true → ∃ c₂ c,
      r₂.captures? subject = some c₂ ∧ r.captures? subject = some c ∧
      c.span? 0 = some ⟨some 0, some subject.length⟩ ∧
      (∀ k, 1 ≤ k → k ≤ r₁.groups → c.span? k = none) ∧
      ∀ k, 1 ≤ k → c.span? (r₁.groups + k) = c₂.span? k) := by
  obtain ⟨p, hp, rfl⟩ := exists_read_of_build hr₁
  obtain rfl := eq_of_build hr₂ hq
  obtain ⟨pq, hpq, rfl⟩ := exists_read_of_build hr
  have htext : (first ++ "|" ++ second).toList = first.toList ++ '|' :: second.toList := by
    simp [String.toList_append]
  obtain rfl : pq = p.either q := read_either hp hq (htext ▸ hpq)
  obtain ⟨found₁, found₂, hfound₁, hfound₂, hfound⟩ :=
    found?_either (wellFormed_of_read hp) (wellFormed_of_read hq) hregular subject
  have hzero : ∀ out, (p.either q).found? subject = some out →
      out.memory.group? 0 = some ⟨some 0, some subject.length⟩ := fun _ =>
    group?_zero_of_found? hpq
  rw [isMatch_eq_found? hp, isMatch_eq_found? hq, isMatch_eq_found? hpq, captures?_eq_found? hp,
    captures?_eq_found? hq, captures?_eq_found? hpq]
  rw [hfound] at hzero ⊢
  generalize p.found? subject = out₁ at hfound₁ ⊢
  generalize q.found? subject = out₂ at hfound₂ ⊢
  refine ⟨rfl, ?_, fun h₁ => ?_, fun h₁ h₂ => ?_⟩
  · cases hfound₁ <;> cases hfound₂ <;> rfl
  · cases hfound₁ with
    | none => cases h₁
    | some hcovers => exact ⟨_, _, rfl, rfl, span?_of_first hcovers⟩
  · cases hfound₁ with
    | some => cases h₁
    | none =>
    cases hfound₂ with
    | none => cases h₂
    | @some out out' hcovers =>
      have hwhole : (Captures.ofFound subject (p.groups + q.groups) out').span? 0 =
          some ⟨some 0, some subject.length⟩ := by
        rw [Captures.span?_ofFound, if_pos (Nat.zero_le _)]
        exact hzero out' rfl
      exact ⟨_, _, rfl, rfl, hwhole, span?_of_second hcovers⟩

/-- In `(a)\1|a?(c)` along `ac` the group of the first pattern is captured, and gone when the second
one matches, which begins with an atom that may be skipped. -/
theorem captures?_either_afterFailure : ∃ r₁ r₂ r c,
    RegexBuilder.build ⟨"(a)\\1", {}⟩ = .ok r₁ ∧ RegexBuilder.build ⟨"a?(c)", {}⟩ = .ok r₂ ∧
      RegexBuilder.build ⟨"(a)\\1" ++ "|" ++ "a?(c)", {}⟩ = .ok r ∧
      r₁.isMatch "ac" = false ∧ r.captures? "ac" = some c ∧ c.span? 0 = some ⟨some 0, some 2⟩ ∧
      c.span? 1 = none ∧ c.span? 2 = some ⟨some 1, some 2⟩ ∧
      r₁.isMatch "aa" = true ∧ r.isMatch "aa" = true := by
  let p : Pattern :=
    ⟨[[.atom (.group 1 [[.atom (.test (.literal 'a')) none]]) none, .atom (.backref 1) none]], 1⟩
  let q : Pattern :=
    ⟨[[.atom (.test (.literal 'a')) (some .optional),
      .atom (.group 1 [[.atom (.test (.literal 'c')) none]]) none]], 1⟩
  have hr₁ : RegexBuilder.build ⟨"(a)\\1", {}⟩ = .ok ⟨"(a)\\1", Graph.ofPattern p⟩ := by
    with_unfolding_all rfl
  have hr₂ : RegexBuilder.build ⟨"a?(c)", {}⟩ = .ok ⟨"a?(c)", Graph.ofPattern q⟩ := by
    with_unfolding_all rfl
  have hq : Pattern.read {} "a?(c)".toList = .ok q := by with_unfolding_all rfl
  have hr : RegexBuilder.build ⟨"(a)\\1" ++ "|" ++ "a?(c)", {}⟩ =
      .ok ⟨"(a)\\1" ++ "|" ++ "a?(c)", Graph.ofPattern (p.either q)⟩ := by
    with_unfolding_all rfl
  have hregular : Branches.Every Item.Regular q.branches := by
    simp [q, Branches.Every, Branch.Every, Atom.Every, Item.Regular]
  have hfail : Regex.isMatch ⟨"(a)\\1", Graph.ofPattern p⟩ "ac" = false := by decide +kernel
  have hsecond : Regex.isMatch ⟨"a?(c)", Graph.ofPattern q⟩ "ac" = true := by decide +kernel
  have hspan : (Regex.captures? ⟨"a?(c)", Graph.ofPattern q⟩ "ac").map (·.span? 1) =
      some (some ⟨some 1, some 2⟩) := by decide +kernel
  have hfirst : Regex.isMatch ⟨"(a)\\1", Graph.ofPattern p⟩ "aa" = true := by decide +kernel
  obtain ⟨-, -, -, hcaptures⟩ := captures?_either hr₁ hr₂ hq hregular hr "ac"
  obtain ⟨-, hmatch, -⟩ := captures?_either hr₁ hr₂ hq hregular hr "aa"
  obtain ⟨c₂, c, hc₂, hc, hzero, hnone, hbehind⟩ := hcaptures hfail hsecond
  rw [hc₂] at hspan
  refine ⟨_, _, _, c, hr₁, hr₂, hr, hfail, hc, hzero, hnone 1 (Nat.le_refl 1) (Nat.le_refl 1),
    (hbehind 1 (Nat.le_refl 1)).trans (Option.some.inj hspan), hfirst, ?_⟩
  rw [hmatch, hfirst, Bool.true_or]

end PatternGraph
