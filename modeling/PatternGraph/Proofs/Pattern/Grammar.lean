import PatternGraph.Proofs.Pattern.Classes
import PatternGraph.Proofs.Pattern.Enclosed

/-!
# The grammar of patterns

What a pattern may look like, said without the reader. Each relation tells which text can be read
and what is left of it, so that a rule can look at what follows.

* `Numeral`, `QuantifierText`: a run of digits, a quantifier;
* `ClassItem`, `ClassItems`: what stands between brackets; `BracketText` a whole class, and
  `BracketTextWithCaret` one in which a caret in first place may be a character as well;
* `Derives`: patterns, branches and atoms, with the groups opened so far;
* **`numeral_iff`**, **`quantifierText_iff`**, **`bracketText_iff`**: numbers, quantifiers and
  classes are read as the grammar says.
-/

namespace PatternGraph

/-! ## Numbers and quantifiers -/

/-- `s` begins with a run of digits that cannot be continued, its value is `n` and fits in 32 bits,
and `t` is left behind it. -/
def Numeral (s : List Char) (n : Nat) (t : List Char) : Prop :=
  ∃ digits, digits ≠ [] ∧ (∀ d ∈ digits, d.isDigit) ∧ (∀ x ∈ t.head?, x.isDigit = false) ∧
    s = digits ++ t ∧ n = Nat.ofDigitChars 10 digits 0 ∧ n < UInt32.size

/-- The text begins with a quantifier, behind which the other one is left. -/
inductive QuantifierText : List Char → List Char → Prop
  | optional {t : List Char} : QuantifierText ('?' :: t) t
  | star {t : List Char} : QuantifierText ('*' :: t) t
  | plus {t : List Char} : QuantifierText ('+' :: t) t
  | exactly {s t : List Char} {m : Nat} : Numeral s m ('}' :: t) → QuantifierText ('{' :: s) t
  | atLeast {s t : List Char} {m : Nat} : Numeral s m (',' :: '}' :: t) → QuantifierText ('{' :: s) t
  | between {s t u : List Char} {m n : Nat} : Numeral s m (',' :: u) → Numeral u n ('}' :: t) →
    m ≤ n → QuantifierText ('{' :: s) t

/-! ## Classes in brackets -/

/-- An item of a class: a character, or two of them with a hyphen between. Behind the beginning of
an item a hyphen makes a range, unless the closing bracket follows. -/
inductive ClassItem (isFirst : Bool) : List Char → List Char → Prop
  | single {s t : List Char} {x : Char} {escaped : Bool} : ClassChar s x escaped t →
    Begins isFirst x escaped t → (∀ u, t = '-' :: u → u.head? = some ']') → ClassItem isFirst s t
  | range {s t u : List Char} {x y : Char} {escaped escaped' : Bool} :
    ClassChar s x escaped ('-' :: t) → Begins isFirst x escaped ('-' :: t) → t.head? ≠ some ']' →
    ClassChar t y escaped' u → x ≤ y → ClassItem isFirst s u

/-- Items up to the closing bracket; the flag tells that the first one is still to come. -/
inductive ClassItems : Bool → List Char → List Char → Prop
  | close {t : List Char} : ClassItems false (']' :: t) t
  | item {isFirst : Bool} {s t u : List Char} : ClassItem isFirst s t → ClassItems false t u →
    ClassItems isFirst s u

/-- What stands behind an opening bracket, up to the closing one. A caret in first place is never an
item, but says that all other characters are meant. -/
inductive BracketText : List Char → List Char → Prop
  | listed {s t : List Char} : s.head? ≠ some '^' → ClassItems true s t → BracketText s t
  | negated {s t : List Char} : ClassItems true s t → BracketText ('^' :: s) t

/-- The same, with a caret in first place that may be left out or be an item. -/
inductive BracketTextWithCaret : List Char → List Char → Prop
  | listed {s t : List Char} : ClassItems true s t → BracketTextWithCaret s t
  | negated {s t : List Char} : ClassItems true s t → BracketTextWithCaret ('^' :: s) t

/-! ## Patterns -/

/-- What a rule of the grammar is about. -/
inductive Part where
  | pattern
  | branch
  | atom
deriving DecidableEq

/-- The characters that do not stand for themselves. -/
def metacharacters : List Char :=
  ['(', ')', '|', '?', '*', '+', '{', '^', '$', '.', '[', '\\']

/-- `s` begins with a part of a pattern and `t` is left behind it; `m` groups have been opened in
front of the part, and `n` in front of what is left. Classes are those of `K`. -/
inductive Derives (K : List Char → List Char → Prop) :
    Part → Nat → List Char → Nat → List Char → Prop
  | single {m n : Nat} {s t : List Char} : Derives K .branch m s n t → Derives K .pattern m s n t
  | choice {m k n : Nat} {s t u : List Char} : Derives K .branch m s k ('|' :: t) →
    Derives K .pattern k t n u → Derives K .pattern m s n u
  | empty {m : Nat} {s : List Char} : Derives K .branch m s m s
  | anchorStart {m n : Nat} {s t : List Char} : Derives K .branch m s n t →
    Derives K .branch m ('^' :: s) n t
  | anchorEnd {m n : Nat} {s t : List Char} : Derives K .branch m s n t →
    Derives K .branch m ('$' :: s) n t
  | item {m k n : Nat} {s t u v : List Char} : Derives K .atom m s k t → u = t ∨ QuantifierText t u →
    Derives K .branch k u n v → Derives K .branch m s n v
  | literal {m : Nat} {x : Char} {t : List Char} : x ∉ metacharacters →
    Derives K .atom m (x :: t) m t
  | any {m : Nat} {t : List Char} : Derives K .atom m ('.' :: t) m t
  | group {m n : Nat} {s t : List Char} : Derives K .pattern (m + 1) s n (')' :: t) →
    Derives K .atom m ('(' :: s) n t
  | bracket {m : Nat} {s t : List Char} : K s t → Derives K .atom m ('[' :: s) m t
  | backref {m k : Nat} {s t : List Char} : Numeral s k t → k ≤ m → Derives K .atom m ('\\' :: s) m t
  | escape {m : Nat} {x : Char} {t : List Char} : x.isDigit = false →
    Derives K .atom m ('\\' :: x :: t) m t

/-! ## Numbers and quantifiers are read as the grammar says -/

section

variable {s t : List Char} {n : Nat}

/-- **A number is read where the grammar has one.** -/
theorem numeral_iff (offset : Nat) :
    Numeral s n t ↔ ∃ offset', Cursor.number ⟨s, offset⟩ = .ok (n, ⟨t, offset'⟩) := by
  constructor
  · rintro ⟨digits, hne, hd, ht, rfl, rfl, hlt⟩
    refine ⟨offset + digits.length, ?_⟩
    rw [Cursor.number_of_digitRun (c := ⟨_, offset⟩) ⟨rfl, hd, ht⟩, if_neg hne, if_pos hlt]
  · rintro ⟨offset', h⟩
    have hrun : DigitRun s _ _ := digitRun_iff.2 ⟨rfl, rfl⟩
    rw [Cursor.number_of_digitRun (c := ⟨s, offset⟩) hrun] at h
    split at h
    · cases h
    · next hne =>
      split at h
      · next hlt =>
        cases h
        exact ⟨_, hne, hrun.isDigit, hrun.maximal, hrun.text_eq, rfl, hlt⟩
      · cases h

theorem Numeral.head?_ne {x : Char} (h : Numeral s n t) (hx : x.isDigit = false) :
    s.head? ≠ some x := by
  obtain ⟨digits, hne, hd, -, rfl, -⟩ := h
  obtain ⟨d, digits, rfl⟩ := List.exists_cons_of_ne_nil hne
  rintro ⟨⟩
  rw [hd x List.mem_cons_self] at hx
  cases hx

theorem exists_counted {opening offset offset' : Nat} {b : Bounds} {e : Cursor}
    (hmin : Cursor.number ⟨s, offset⟩ = .ok (b.min, e))
    (hmax : e.upperBound b.min = .ok (b.max, ⟨'}' :: t, offset'⟩))
    (hle : ∀ max ∈ b.max, b.min ≤ max) :
    ∃ q d, Cursor.counted opening ⟨s, offset⟩ = .ok (q, d) ∧ d.rest = t :=
  ⟨.counted b, ⟨t, offset' + 1⟩,
    Cursor.counted_eq_ok.2 ⟨b, Cursor.bounds_eq_ok.2 ⟨e, _, hmin, hmax, rfl, rfl, hle⟩, rfl⟩, rfl⟩

/-- **Bounds in braces are read where the grammar has them.** -/
theorem quantifierText_iff (opening offset : Nat) : QuantifierText ('{' :: s) t ↔
    ∃ q d, Cursor.counted opening ⟨s, offset⟩ = .ok (q, d) ∧ d.rest = t := by
  constructor
  · intro h
    cases h with
    | @exactly _ _ m hm =>
      obtain ⟨o, ho⟩ := (numeral_iff offset).1 hm
      exact exists_counted (b := ⟨m, some m⟩) ho
        (Cursor.upperBound_eq_ok.2 (.inr (.inr ⟨by simp, rfl, rfl⟩))) (by simp)
    | @atLeast _ _ m hm =>
      obtain ⟨o, ho⟩ := (numeral_iff offset).1 hm
      exact exists_counted (b := ⟨m, none⟩) ho
        (Cursor.upperBound_eq_ok.2 (.inl ⟨t, rfl, rfl, rfl⟩)) (by simp)
    | @between _ _ u m n hm hn hle =>
      obtain ⟨o, ho⟩ := (numeral_iff offset).1 hm
      obtain ⟨o', ho'⟩ := (numeral_iff (o + 1)).1 hn
      refine exists_counted (b := ⟨m, some n⟩) ho (Cursor.upperBound_eq_ok.2
        (.inr (.inl ⟨u, n, rfl, hn.head?_ne (by decide), rfl, ho'⟩))) (by simpa using hle)
  · rintro ⟨q, d, h, rfl⟩
    obtain ⟨b, hb, rfl⟩ := Cursor.counted_eq_ok.1 h
    obtain ⟨e, e', hmin, hmax, hr, -, hle⟩ := Cursor.bounds_eq_ok.1 hb
    have hm : Numeral s b.min e.rest := (numeral_iff offset).2 ⟨e.offset, hmin⟩
    rcases Cursor.upperBound_eq_ok.1 hmax with ⟨rest, hc, -, rfl⟩ | ⟨rest, high, hc, -, hb, hhigh⟩ |
      ⟨-, -, rfl⟩
    · obtain rfl := (List.cons.inj hr).2
      rw [hc] at hm
      exact .atLeast hm
    · rw [hc] at hm
      have hn : Numeral rest high e'.rest := (numeral_iff _).2 ⟨e'.offset, hhigh⟩
      rw [hr] at hn
      exact .between hm hn (hle high hb)
    · rw [hr] at hm
      exact .exactly hm

end

/-! ## Classes are read as the grammar says -/

section

variable {s t : List Char} {isFirst : Bool}

theorem classItem_iff : ClassItem isFirst s t ↔ ∃ r, ListsItem isFirst s r t := by
  constructor
  · intro h
    cases h with
    | single hx hb hs => exact ⟨_, .single hx hb hs⟩
    | range hx hb hne hy hle => exact ⟨_, .range hx hb hne hy hle⟩
  · rintro ⟨r, h⟩
    cases h with
    | single hx hb hs => exact .single hx hb hs
    | range hx hb hne hy hle => exact .range hx hb hne hy hle

theorem classItems_iff : ClassItems isFirst s t ↔ ∃ rs, ListsRanges isFirst s rs t := by
  constructor
  · intro h
    induction h with
    | close => exact ⟨[], .close⟩
    | item hi _ ih =>
      obtain ⟨r, hr⟩ := classItem_iff.1 hi
      obtain ⟨rs, hrs⟩ := ih
      exact ⟨r :: rs, .item hr hrs⟩
  · rintro ⟨rs, h⟩
    induction h with
    | close => exact .close
    | item hi _ ih => exact .item (classItem_iff.2 ⟨_, hi⟩) ih

theorem bracketText_iff_exists : BracketText s t ↔ ∃ k, ListsClass s k t := by
  constructor
  · intro h
    cases h with
    | listed hne hitems =>
      obtain ⟨rs, hrs⟩ := classItems_iff.1 hitems
      exact ⟨_, .listed hne hrs⟩
    | negated hitems =>
      obtain ⟨rs, hrs⟩ := classItems_iff.1 hitems
      exact ⟨_, .negated hrs⟩
  · rintro ⟨k, h⟩
    cases h with
    | listed hne hrs => exact .listed hne (classItems_iff.2 ⟨_, hrs⟩)
    | negated hrs => exact .negated (classItems_iff.2 ⟨_, hrs⟩)

/-- **A class is read where the grammar has one.** -/
theorem bracketText_iff (opening offset : Nat) : BracketText s t ↔
    ∃ k d, Cursor.bracket opening ⟨s, offset⟩ = .ok (k, d) ∧ d.rest = t := by
  rw [bracketText_iff_exists]
  constructor
  · rintro ⟨k, h⟩
    obtain ⟨o, ho⟩ := (listsClass_iff opening offset).1 h
    exact ⟨k, _, ho, rfl⟩
  · rintro ⟨k, d, h, rfl⟩
    exact ⟨k, (listsClass_iff opening offset).2 ⟨d.offset, h⟩⟩

end

end PatternGraph
