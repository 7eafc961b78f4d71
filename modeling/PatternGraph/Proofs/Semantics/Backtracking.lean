import PatternGraph.Proofs.Pattern.Nullable
import PatternGraph.Proofs.Search.Path

/-!
# Backtracking along the tree of a pattern

What a pattern matches, and with which groups, by recursion on its tree. Each part is given what is
to be tried behind it, and tries its own ways in order until that succeeds: branches from left to
right, and of a quantified atom one more pass before none.

* `Groups`, `Groups.openAt`, `Groups.closeAt`: the latest instance of each group;
* `Bounds.repeated`: pass after pass over a body, as often as the bounds allow;
* `Atom.tries`, `Branch.tries`, `Branches.tries`: the parts of a tree;
* `Pattern.captures?`: a whole pattern along a whole subject;
* `Atom.tries_congr`: a part is only ever followed by what lies ahead of it;
* **`repeated_eq`**: where every pass reads something, no pass has to be told to move on.
-/

namespace PatternGraph

/-- The latest instance of each group. -/
abbrev Groups := Nat → Span

namespace Groups

/-- No group has been entered. -/
def unset : Groups := fun _ => {}

/-- The group is entered: its span is open. -/
def openAt (c : Groups) (group offset : Nat) : Groups :=
  Function.update c group (.startingAt offset)

/-- The group is left: its span is closed. -/
def closeAt (c : Groups) (group offset : Nat) : Groups :=
  Function.update c group ((c group).withStop (some offset))

end Groups

/-- What is tried behind a part, at the offset where the part ends and with the groups as they are
then. It gives the groups of the whole match, if there is one. -/
abbrev Continuation := Nat → Groups → Option Groups

/-! ## Passes -/

/-- A bound on the passes that are still to come. -/
def Bounds.left (b : Bounds) (size count offset : Nat) : Nat :=
  match b.max with
  | some max => max - count
  | none => size - offset

theorem Bounds.left_lt {b : Bounds} {size count i j : Nat} (hl : b.mayLoop count)
    (hj : b.max.isSome ∨ i < j ∧ j ≤ size) : b.left size (count + 1) j < b.left size count i := by
  obtain ⟨low, _ | high⟩ := b
  · simp only [Option.isSome_none, Bool.false_eq_true, false_or] at hj
    simp only [left]; omega
  · simp only [mayLoop, Option.all_some, decide_eq_true_eq] at hl
    simp only [left]; omega

/-- After `count` passes over the body another one is tried, if the bounds allow it, and then what
comes behind. Without an upper bound a pass has to move on within the subject. -/
def Bounds.repeated (b : Bounds) (size : Nat) (body : Continuation → Continuation)
    (k : Continuation) (count i : Nat) (c : Groups) : Option Groups :=
  (if hl : b.mayLoop count then
    body (fun j c' =>
      if hj : b.max.isSome ∨ i < j ∧ j ≤ size then b.repeated size body k (count + 1) j c'
      else none) i c
  else none).or (if b.satisfied count then k i c else none)
termination_by b.left size count i
decreasing_by exact Bounds.left_lt hl hj

/-! ## The tree -/

mutual

/-- The first way to match the atom from an offset on and then go on with `k`. -/
def Atom.tries (subject : Array Char) : Atom → Continuation → Continuation
  | .test t, k, i, c => if subject[i]?.any t.accepts then k (i + 1) c else none
  | .backref group, k, i, c =>
    match (c group).copyEnd? subject i with
    | none => none
    | some j => k j c
  | .group number branches, k, i, c =>
    Branches.tries subject branches (fun j c' => k j (c'.closeAt number j)) i (c.openAt number i)

/-- The first way to match one of the branches and then go on with `k`. -/
def Branches.tries (subject : Array Char) : List (List Item) → Continuation → Continuation
  | [], _, _, _ => none
  | b :: bs, k, i, c => (Branch.tries subject b k i c).or (Branches.tries subject bs k i c)

/-- The first way to match the items one after the other and then go on with `k`. -/
def Branch.tries (subject : Array Char) : List Item → Continuation → Continuation
  | [], k, i, c => k i c
  | .anchor a :: rest, k, i, c =>
    if a.holds subject i then Branch.tries subject rest k i c else none
  | .atom a none :: rest, k, i, c => a.tries subject (Branch.tries subject rest k) i c
  | .atom a (some q) :: rest, k, i, c =>
    q.bounds.repeated subject.size (a.tries subject) (Branch.tries subject rest k) 0 i c

end

/-- Only the end of the subject will do, where group 0 is closed. -/
def atEnd (subject : Array Char) : Continuation := fun i c =>
  if i = subject.size then some (c.closeAt 0 i) else none

/-- The groups with which the pattern matches the whole subject. Group 0 is open all along. -/
def Pattern.captures? (p : Pattern) (subject : Array Char) : Option Groups :=
  Branches.tries subject p.branches (atEnd subject) 0 (Groups.unset.openAt 0 0)

/-- In `(a?)(ab|b)` the first group takes what it can. -/
example : ((Pattern.captures? ⟨[[.atom (.group 1 [[.atom (.test (.literal 'a')) (some .optional)]])
      none, .atom (.group 2 [[.atom (.test (.literal 'a')) none, .atom (.test (.literal 'b')) none],
        [.atom (.test (.literal 'b')) none]]) none]], 2⟩ #['a', 'b']).map fun c =>
      [c 0, c 1, c 2].map Span.range?) = some [some (0, 2), some (0, 1), some (1, 2)] := by
  cbv

/-! ## What may come behind a part -/

section

variable {subject : Array Char}

/-- Two continuations give the same wherever a part that begins at `i` may end, which is further
on if the part has to read something. -/
def SameBehind (size i : Nat) (nullable : Bool) (k k' : Continuation) : Prop :=
  ∀ j c, i ≤ j → j ≤ size → (nullable = false → i < j) → k j c = k' j c

theorem SameBehind.mono {size i j : Nat} {n n' : Bool} {k k' : Continuation}
    (h : SameBehind size i n k k') (hij : i ≤ j) (hn : n = false → n' = false ∨ i < j) :
    SameBehind size j n' k k' := by
  intro l c hjl hl hn'
  refine h l c (Nat.le_trans hij hjl) hl fun hf => ?_
  rcases hn hf with h | h
  · exact Nat.lt_of_le_of_lt hij (hn' h)
  · exact Nat.lt_of_lt_of_le h hjl

theorem Bounds.repeated_congr {b : Bounds} {size : Nat} {body : Continuation → Continuation}
    {n : Bool} {k k' : Continuation}
    (hbody : ∀ {k k' : Continuation} {i : Nat} {c : Groups}, i ≤ size → SameBehind size i n k k' →
      body k i c = body k' i c)
    {count i : Nat} {c : Groups} (hi : i ≤ size)
    (hk : SameBehind size i (b.satisfied count || n) k k') :
    b.repeated size body k count i c = b.repeated size body k' count i c := by
  -- every pass leaves fewer to come
  induction h : b.left size count i using Nat.strongRecOn generalizing count i c with
  | _ r ih =>
  subst h
  have hloop : b.mayLoop count → body (fun j c' =>
        if b.max.isSome ∨ i < j ∧ j ≤ size then b.repeated size body k (count + 1) j c'
        else none) i c =
      body (fun j c' =>
        if b.max.isSome ∨ i < j ∧ j ≤ size then b.repeated size body k' (count + 1) j c'
        else none) i c := by
    intro hl
    refine hbody hi fun j c' hij hj hn => ?_
    by_cases hg : b.max.isSome ∨ i < j ∧ j ≤ size
    · rw [if_pos hg, if_pos hg]
      refine ih _ (Bounds.left_lt hl hg) hj (hk.mono hij fun hf => .inr (hn ?_)) rfl
      exact (Bool.or_eq_false_iff.1 hf).2
    · rw [if_neg hg, if_neg hg]
  have hleave : (if b.satisfied count then k i c else none) =
      if b.satisfied count then k' i c else none := by
    by_cases hs : b.satisfied count
    · rw [if_pos hs, if_pos hs]
      exact hk i c (Nat.le_refl i) hi (by simp [hs])
    · rw [if_neg hs, if_neg hs]
  rw [Bounds.repeated, Bounds.repeated, hleave]
  by_cases hl : b.mayLoop count
  · rw [dif_pos hl, dif_pos hl]
    exact congrArg (Option.or · _) (hloop hl)
  · rw [dif_neg hl, dif_neg hl]

mutual

/-- Behind an atom only offsets count that lie further on in the subject, and are not the one where
the atom begins if it has to read something. -/
theorem Atom.tries_congr : ∀ (a : Atom) {k k' : Continuation} {i : Nat} {c : Groups},
    i ≤ subject.size → SameBehind subject.size i a.nullable k k' →
      a.tries subject k i c = a.tries subject k' i c
  | .test t, k, k', i, c, hi, hk => by
    simp only [Atom.tries]
    by_cases h : subject[i]?.any t.accepts
    · rw [if_pos h, if_pos h]
      exact hk _ _ (Nat.le_succ i) (lt_size_of_any h) fun _ => Nat.lt_succ_self i
    · rw [if_neg h, if_neg h]
  | .backref group, k, k', i, c, hi, hk => by
    simp only [Atom.tries]
    cases h : (c group).copyEnd? subject i with
    | none => rfl
    | some j =>
      obtain ⟨hij, hj⟩ := Span.offset_le_copyEnd? h
      exact hk _ _ hij hj (by simp [Atom.nullable])
  | .group number bs, k, k', i, c, hi, hk => by
    simp only [Atom.tries]
    exact Branches.tries_congr bs hi fun j c' hij hj hn => hk j _ hij hj hn

theorem Branches.tries_congr : ∀ (bs : List (List Item)) {k k' : Continuation} {i : Nat}
    {c : Groups}, i ≤ subject.size → SameBehind subject.size i (Branches.nullable bs) k k' →
      Branches.tries subject bs k i c = Branches.tries subject bs k' i c
  | [], _, _, _, _, _, _ => rfl
  | b :: bs, k, k', i, c, hi, hk => by
    have hor : Branches.nullable (b :: bs) = false →
        Branch.nullable b = false ∧ Branches.nullable bs = false := Bool.or_eq_false_iff.1
    simp only [Branches.tries]
    rw [Branch.tries_congr b hi (hk.mono (Nat.le_refl i) fun h => .inl (hor h).1),
      Branches.tries_congr bs hi (hk.mono (Nat.le_refl i) fun h => .inl (hor h).2)]

theorem Branch.tries_congr : ∀ (b : List Item) {k k' : Continuation} {i : Nat} {c : Groups},
    i ≤ subject.size → SameBehind subject.size i (Branch.nullable b) k k' →
      Branch.tries subject b k i c = Branch.tries subject b k' i c
  | [], _, _, i, c, hi, hk => hk i c (Nat.le_refl i) hi (by simp [Branch.nullable])
  | .anchor a :: rest, k, k', i, c, hi, hk => by
    simp only [Branch.tries]
    rw [Branch.tries_congr rest hi hk]
  | .atom a none :: rest, k, k', i, c, hi, hk => by
    simp only [Branch.tries]
    refine a.tries_congr hi fun j c hij hj hn => Branch.tries_congr rest hj (hk.mono hij ?_)
    intro h
    exact (Bool.and_eq_false_iff.1 h).symm.imp_right hn
  | .atom a (some q) :: rest, k, k', i, c, hi, hk => by
    simp only [Branch.tries]
    refine Bounds.repeated_congr (n := a.nullable) (fun hi hk => ?_) hi fun j c hij hj hn => ?_
    · exact a.tries_congr hi hk
    refine Branch.tries_congr rest hj (hk.mono hij fun h => ?_)
    rw [Branch.nullable, q.skips_eq_satisfied] at h
    exact (Bool.and_eq_false_iff.1 h).symm.imp_right hn

end

/-- **Where every pass reads something, no pass has to be told to move on.** -/
theorem repeated_eq {a : Atom} {b : Bounds} (hr : b.max = none → a.nullable = false)
    {k : Continuation} {count i : Nat} {c : Groups} (hi : i ≤ subject.size) :
    b.repeated subject.size (a.tries subject) k count i c =
      (if b.mayLoop count then
        a.tries subject (b.repeated subject.size (a.tries subject) k (count + 1)) i c
      else none).or (if b.satisfied count then k i c else none) := by
  rw [Bounds.repeated]
  congr 1
  by_cases hl : b.mayLoop count
  · rw [dif_pos hl, if_pos hl]
    refine a.tries_congr hi fun j c' hij hj hn => ?_
    have hg : b.max.isSome ∨ i < j ∧ j ≤ subject.size := by
      cases hmax : b.max with
      | none => exact .inr ⟨hn (hr hmax), hj⟩
      | some max => exact .inl rfl
    rw [dif_pos hg]
  · rw [dif_neg hl, if_neg hl]

end

/-! ## Nothing behind a part -/

section

variable {subject : Array Char}

theorem Bounds.repeated_none {b : Bounds} {size : Nat} {body : Continuation → Continuation}
    (hbody : ∀ i c, body (fun _ _ => none) i c = none) (count i : Nat) (c : Groups) :
    b.repeated size body (fun _ _ => none) count i c = none := by
  induction h : b.left size count i using Nat.strongRecOn generalizing count i c with
  | _ r ih =>
  subst h
  rw [Bounds.repeated, ite_self, Option.or_none]
  by_cases hl : b.mayLoop count
  · rw [dif_pos hl]
    refine Eq.trans (congrArg (fun k => body k i c) ?_) (hbody i c)
    funext j c'
    by_cases hg : b.max.isSome ∨ i < j ∧ j ≤ size
    · rw [dif_pos hg]
      exact ih _ (Bounds.left_lt hl hg) _ _ _ rfl
    · rw [dif_neg hg]
  · rw [dif_neg hl]

mutual

theorem Atom.tries_none : ∀ (a : Atom) (i : Nat) (c : Groups),
    a.tries subject (fun _ _ => none) i c = none
  | .test t, i, c => by simp [Atom.tries]
  | .backref group, i, c => by
    simp only [Atom.tries]
    cases (c group).copyEnd? subject i <;> rfl
  | .group number bs, i, c => Branches.tries_none bs i _

theorem Branches.tries_none : ∀ (bs : List (List Item)) (i : Nat) (c : Groups),
    Branches.tries subject bs (fun _ _ => none) i c = none
  | [], _, _ => rfl
  | b :: bs, i, c => by
    rw [Branches.tries, Branch.tries_none b i c, Branches.tries_none bs i c, Option.or_none]

theorem Branch.tries_none : ∀ (b : List Item) (i : Nat) (c : Groups),
    Branch.tries subject b (fun _ _ => none) i c = none
  | [], _, _ => rfl
  | .anchor a :: rest, i, c => by
    rw [Branch.tries, Branch.tries_none rest i c, ite_self]
  | .atom a none :: rest, i, c => by
    rw [Branch.tries, show Branch.tries subject rest (fun _ _ => none) = fun _ _ => none from
      funext fun i => funext (Branch.tries_none rest i)]
    exact Atom.tries_none a i c
  | .atom a (some q) :: rest, i, c => by
    rw [Branch.tries, show Branch.tries subject rest (fun _ _ => none) = fun _ _ => none from
      funext fun i => funext (Branch.tries_none rest i)]
    exact Bounds.repeated_none (Atom.tries_none a) 0 i c

end

end

end PatternGraph
