import PatternGraph.Pattern.Cursor

/-!
# Classes in brackets

A bracket lists characters and ranges. A backslash takes away what its follower would mean
otherwise; without one, a closing bracket is a character only in first place, and a hyphen only in
first place or right before the closing bracket. A hyphen behind a character makes a range, unless
the bracket is closed right after it.

* `Cursor.classChar`: one character of the list, with or without backslash;
* `Cursor.ranges`: the list up to the closing bracket;
* `Cursor.bracket`: the whole class, with its caret.
-/

namespace PatternGraph

namespace Cursor

/-- Reads one character of a class and tells whether a backslash stood before it. There is none
if the text ends here. -/
def classChar (c : Cursor) : Option (Char × Bool × Cursor) :=
  match c.rest with
  | [] => none
  | ['\\'] => none
  | '\\' :: x :: rest => some (x, true, ⟨rest, c.offset + 2⟩)
  | x :: rest => some (x, false, ⟨rest, c.offset + 1⟩)

theorem before_of_classChar {c d : Cursor} {x : Char} {escaped : Bool}
    (h : c.classChar = some (x, escaped, d)) : c.Before d := by
  unfold classChar at h
  split at h <;> simp only [reduceCtorEq, Option.some.injEq, Prod.mk.injEq] at h
  · next hc => exact h.2.2 ▸ (before_of_rest hc).trans (before_of_rest rfl)
  · next hc => exact h.2.2 ▸ before_of_rest hc

/-- Reads the list of a class from `c` on, behind the ranges in `found`, the latest of which comes
first. A class without end is reported at `opening`, where its bracket stands, and a range in the
wrong order where the range begins. -/
def ranges (opening : Nat) (isFirst : Bool) (found : List CharRange) (c : Cursor) :
    Except Fault (List CharRange × Cursor) :=
  match _hc : c.classChar with
  | none => .error ⟨.unclosedClass, opening⟩
  | some (x, escaped, d) =>
    if x = ']' ∧ !escaped ∧ !isFirst then .ok (found.reverse, d)
    else if x = '-' ∧ !escaped ∧ !isFirst ∧ d.rest.head? ≠ some ']' then
      .error ⟨.strayHyphen, c.offset⟩
    else match hd : d.rest with
      | '-' :: ']' :: rest =>
        ranges opening false (.single '-' :: .single x :: found) ⟨']' :: rest, d.offset + 1⟩
      | '-' :: rest =>
        match _he : classChar ⟨rest, d.offset + 1⟩ with
        | none => .error ⟨.unclosedClass, opening⟩
        | some (y, _, e) =>
          if x ≤ y then ranges opening false (⟨x, y⟩ :: found) e
          else .error ⟨.rangeInverted x y, c.offset⟩
      | _ => ranges opening false (.single x :: found) d
termination_by c.rest.length
decreasing_by
  · exact ((before_of_classChar _hc).trans (before_of_rest hd)).length_lt
  · exact ((before_of_classChar _hc).trans
      ((before_of_rest hd).trans (before_of_classChar _he))).length_lt
  · exact (before_of_classChar _hc).length_lt

theorem before_of_ranges {opening : Nat} {isFirst : Bool} {found out : List CharRange}
    {c d : Cursor} (h : ranges opening isFirst found c = .ok (out, d)) : c.Before d := by
  fun_induction ranges opening isFirst found c with
  | case1 | case3 | case5 | case7 => cases h
  | case2 _ _ _ _ _ _ hc => cases h; exact before_of_classChar hc
  | case4 _ _ _ _ _ _ hc _ _ _ hd ih =>
    exact ((before_of_classChar hc).trans (before_of_rest hd)).trans (ih h)
  | case6 _ _ _ _ _ _ hc _ _ _ _ hd _ _ _ he _ ih =>
    exact ((before_of_classChar hc).trans (before_of_rest hd)).trans
      ((before_of_classChar he).trans (ih h))
  | case8 _ _ _ _ _ _ hc _ _ _ _ ih => exact (before_of_classChar hc).trans (ih h)

/-- Reads the caret that may stand right behind the opening bracket, and tells whether it does. -/
def caret (c : Cursor) : Bool × Cursor :=
  match c.rest with
  | '^' :: rest => (true, ⟨rest, c.offset + 1⟩)
  | _ => (false, c)

/-- Reads a class behind its opening bracket, which stands at `opening`. -/
def bracket (opening : Nat) (c : Cursor) : Except Fault (CharClass × Cursor) :=
  match ranges opening true [] c.caret.2 with
  | .error e => .error e
  | .ok (found, d) => .ok (⟨c.caret.1, found⟩, d)

theorem before_of_bracket {opening : Nat} {k : CharClass} {c d : Cursor}
    (h : c.bracket opening = .ok (k, d)) : c.Before d := by
  unfold bracket at h
  split at h
  · cases h
  · next hr =>
    cases h
    have hd := before_of_ranges hr
    unfold caret at hd
    split at hd
    · next hc => exact (before_of_rest hc).trans hd
    · exact hd

end Cursor

end PatternGraph
