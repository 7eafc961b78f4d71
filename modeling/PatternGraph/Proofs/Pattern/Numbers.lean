import PatternGraph.Proofs.Pattern.Fits

/-!
# The numbers of the groups

Groups are numbered where they are opened. So along the text of a pattern their numbers are 1, 2, 3
and so on, up to the number of groups.

* `Atom.numbers`, `Branch.numbers`, `Branches.numbers`: the numbers in the order of the text;
* `Reading.numbers`: those given out so far, **`Reading.numbers_grows`**: a construct gives out the
  next one or none;
* **`numbers_of_read`**: in a pattern that has been read the numbers are those up to that of groups.
-/

namespace PatternGraph

/-! ## Numbers in a tree -/

mutual

/-- The numbers of the groups in an atom, in the order in which they are opened. -/
def Atom.numbers : Atom → List Nat
  | .test _ => []
  | .backref _ => []
  | .group k branches => k :: Branches.numbers branches

/-- The numbers of the groups in branches. -/
def Branches.numbers : List (List Item) → List Nat
  | [] => []
  | b :: bs => Branch.numbers b ++ Branches.numbers bs

/-- The numbers of the groups in a branch. -/
def Branch.numbers : List Item → List Nat
  | [] => []
  | .anchor _ :: rest => Branch.numbers rest
  | .atom a _ :: rest => a.numbers ++ Branch.numbers rest

end

theorem Branch.numbers_append (b b' : Branch) :
    Branch.numbers (b ++ b') = Branch.numbers b ++ Branch.numbers b' := by
  induction b with
  | nil => rfl
  | cons item b ih => cases item <;> simp [Branch.numbers, ih]

theorem Branches.numbers_append (bs bs' : Branches) :
    Branches.numbers (bs ++ bs') = Branches.numbers bs ++ Branches.numbers bs' := by
  induction bs with
  | nil => rfl
  | cons b bs ih => simp [Branches.numbers, ih]

/-! ## Numbers given out -/

/-- The numbers of the groups in a scope. -/
def Scope.numbers (s : Scope) : List Nat := Branches.numbers s.body

/-- The numbers of the open groups, and of the groups in the scopes around them. -/
def OpenGroup.numbers : List OpenGroup → List Nat
  | [] => []
  | g :: opened => OpenGroup.numbers opened ++ g.outer.numbers ++ [g.number]

/-- All numbers that have been given out so far. -/
def Reading.numbers (r : Reading) : List Nat := OpenGroup.numbers r.opened ++ r.scope.numbers

section

variable {limits : Limits} {r s : Reading} {t : Scope}

theorem Scope.numbers_eq (t : Scope) :
    t.numbers = Branches.numbers t.branches.reverse ++ Branch.numbers t.items.reverse := by
  rw [numbers, body, bar, List.reverse_cons, Branches.numbers_append]
  simp [Branches.numbers]

theorem Scope.numbers_add (t : Scope) (item : Item) :
    (t.add item).numbers = t.numbers ++ Branch.numbers [item] := by
  simp only [numbers_eq, add, List.reverse_cons, Branch.numbers_append, List.append_assoc]

theorem Scope.numbers_bar (t : Scope) : t.bar.numbers = t.numbers := by
  rw [numbers_eq, numbers_eq, bar, List.reverse_cons, Branches.numbers_append]
  simp [Branches.numbers, Branch.numbers]

theorem Scope.numbers_quantified {a : Atom} {items : Branch} (q : Quantifier)
    (h : t.items = .atom a none :: items) :
    Scope.numbers ⟨t.branches, .atom a (some q) :: items⟩ = t.numbers := by
  simp only [numbers_eq, h, List.reverse_cons, Branch.numbers_append, Branch.numbers]

theorem Item.Plain.numbers {item : Item} {n : Nat} (h : item.Plain n) :
    Branch.numbers [item] = [] := by
  match item, h with
  | .anchor _, _ => rfl
  | .atom (.test _) _, _ => rfl
  | .atom (.backref _) _, _ => rfl

/-- **A construct gives out the next number or none.** -/
theorem Reading.numbers_grows (hs : r.Grows s) (h : r.numbers = List.range' 1 r.groups) :
    s.numbers = List.range' 1 s.groups := by
  rw [numbers] at h ⊢
  cases hs with
  | item c item hi => rw [Scope.numbers_add, hi.numbers, List.append_nil, h]
  | opens c =>
    have hnone : Scope.numbers {} = [] := rfl
    show OpenGroup.numbers r.opened ++ r.scope.numbers ++ [r.groups + 1] ++ Scope.numbers {} = _
    rw [h, hnone, List.append_nil, List.range'_1_concat, Nat.add_comm 1]
  | closes c g opened ho =>
    rw [ho] at h
    rw [Scope.numbers_add, ← h]
    simp [OpenGroup.numbers, Branch.numbers, Atom.numbers, Scope.numbers]
  | bar c => rw [Scope.numbers_bar, h]
  | quantified c a items q hi _ => rw [Scope.numbers_quantified q hi, h]

theorem Reading.numbers_toEnd (hs : r.toEnd limits = .ok s)
    (h : r.numbers = List.range' 1 r.groups) : s.numbers = List.range' 1 s.groups := by
  fun_induction Reading.toEnd limits r with
  | case1 => cases hs; exact h
  | case2 => cases hs
  | case3 _ _ _ _ _ hn ih => exact ih hs (numbers_grows (grows_of_next hn) h)

/-- **In a pattern that has been read the groups are numbered from 1 on, in the order of the
text.** -/
theorem numbers_of_read {text : List Char} {p : Pattern} (h : Pattern.read limits text = .ok p) :
    Branches.numbers p.branches = List.range' 1 p.groups := by
  obtain ⟨-, r, hr, ho, rfl⟩ := Pattern.read_eq_ok.1 h
  have hnumbers := Reading.numbers_toEnd hr rfl
  rwa [Reading.numbers, ho] at hnumbers

end

end PatternGraph
