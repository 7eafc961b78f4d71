import Mathlib.Data.List.Basic
import PatternGraph.Pattern.Bracket

/-!
# Reading inside a longer text

What is read of a text is read in the same way where the text stands in a longer one. What is wrong
with it is found there as well, unless it is that the text ends.

* `Cursor.within`, `Fault.within`: the cursors and the faults of a text in the longer one;
  `Delimits`: what may stand behind the text so that its numbers end where they did;
* `Fault.Decided`: a fault that does not come from the end of the text;
* `Persists`: the same comes of reading in the longer text; `number_persists`,
  **`counted_persists`**, **`bracket_persists`**: numbers, bounds and classes;
* `number_within`, `counted_within`, `bracket_within`: those that are read without a fault.
-/

namespace PatternGraph

/-! ## Cursors and faults -/

/-- Nothing that could be read together with what stands before it: the text ends there, or goes
on with a closing parenthesis or a bar. -/
def Delimits (tail : List Char) : Prop := ∀ x ∈ tail.head?, x = ')' ∨ x = '|'

/-- The cursor of a text, seen from a longer one in which `ahead` characters stand before the text
and `tail` behind it. -/
def Cursor.within (tail : List Char) (ahead : Nat) (c : Cursor) : Cursor :=
  ⟨c.rest ++ tail, ahead + c.offset⟩

/-- The fault of a text, in the longer one. -/
def Fault.within (ahead : Nat) (e : Fault) : Fault := ⟨e.cause, ahead + e.offset⟩

/-- The length of the text that a cursor is in. -/
def Cursor.length (c : Cursor) : Nat := c.offset + c.rest.length

theorem Cursor.Before.length_eq {c d : Cursor} (h : c.Before d) : d.length = c.length := by
  obtain ⟨read, -, hc, ho⟩ := h
  rw [length, length, hc, ho, List.length_append, Nat.add_assoc]

/-- The fault does not come from the end of the text, which has `n` characters: it is not that more
had to follow, and the characters that it was found by are all there. -/
def Fault.Decided (n : Nat) (e : Fault) : Prop :=
  match e.cause with
  | .unopenedGroup | .missingOperand | .stackedQuantifier | .unclosedBounds | .boundsInverted _ _
  | .rangeInverted _ _ | .nestingLimit _ => True
  | .numberExpected | .nodeLimit _ => e.offset < n
  | .strayHyphen => e.offset + 1 < n
  | .unexpectedEnd | .unclosedGroup | .unclosedClass | .undefinedBackref _ => False

/-- What comes of reading a text of `n` characters, and of reading it in a longer one: the same, as
`place` has it there, or the same fault. Nothing is said about what is `done` with the text, nor
about a fault that is not decided. -/
inductive Persists {α : Type} (n ahead : Nat) (done : α → Prop) (place : α → α) :
    Except Fault α → Except Fault α → Prop
  | ok (a : α) : Persists n ahead done place (.ok a) (.ok (place a))
  | error (e : Fault) : Persists n ahead done place (.error e) (.error (e.within ahead))
  | done {a : α} {y : Except Fault α} : done a → Persists n ahead done place (.ok a) y
  | undecided {e : Fault} {y : Except Fault α} : ¬ e.Decided n →
    Persists n ahead done place (.error e) y

theorem Persists.eq_ok {α : Type} {n ahead : Nat} {place : α → α} {x y : Except Fault α} {a : α}
    (h : Persists n ahead (fun _ => False) place x y) (hx : x = .ok a) : y = .ok (place a) := by
  cases h with
  | ok => cases hx; rfl
  | done h => exact h.elim
  | error | undecided => cases hx

theorem Persists.eq_error {α : Type} {n ahead : Nat} {done : α → Prop} {place : α → α}
    {x y : Except Fault α} {e : Fault} (h : Persists n ahead done place x y) (hx : x = .error e)
    (hd : e.Decided n) : y = .error (e.within ahead) := by
  cases h with
  | error => cases hx; rfl
  | undecided h => cases hx; exact absurd hd h
  | ok | done => cases hx

/-- What persists can be gone on with, in both texts, and at the end of the shorter one. -/
theorem Persists.bind {α β : Type} {n ahead : Nat} {done : α → Prop} {place : α → α}
    {done' : β → Prop} {place' : β → β} {x y : Except Fault α} {f f' : α → Except Fault β}
    (h : Persists n ahead done place x y)
    (hok : ∀ a, x = .ok a → Persists n ahead done' place' (f a) (f' (place a)))
    (hdone : ∀ a, x = .ok a → done a → ∀ z, Persists n ahead done' place' (f a) z) :
    Persists n ahead done' place' (x.bind f) (y.bind f') := by
  cases h with
  | ok a => exact hok a rfl
  | error e => exact .error e
  | done h => exact hdone _ rfl h _
  | undecided h => exact .undecided h

section

variable {tail : List Char} {ahead : Nat} {c d : Cursor}

/-! ## Numbers -/

variable (tail) in
theorem digits_append (rest : List Char) (ht : rest.dropWhile Char.isDigit = [] → Delimits tail) :
    (rest ++ tail).takeWhile Char.isDigit = rest.takeWhile Char.isDigit ∧
      (rest ++ tail).dropWhile Char.isDigit = rest.dropWhile Char.isDigit ++ tail := by
  induction rest with
  | nil =>
    cases tail with
    | nil => simp
    | cons x tail =>
      have hx : x.isDigit = false := by rcases ht rfl x rfl with rfl | rfl <;> decide
      simp [hx]
  | cons x rest ih =>
    by_cases hd : x.isDigit
    · simpa [hd] using ih (by simpa [hd] using ht)
    · simp [hd]

theorem number_within (ht : Delimits tail) {n : Nat} (h : c.number = .ok (n, d)) :
    (c.within tail ahead).number = .ok (n, d.within tail ahead) := by
  obtain ⟨htake, hdrop⟩ := digits_append tail c.rest fun _ => ht
  obtain ⟨hne, rfl, hlt, rfl⟩ := Cursor.number_eq_ok.1 h
  apply Cursor.number_eq_ok.2
  simp only [Cursor.within, htake, hdrop, Nat.add_assoc]
  exact ⟨hne, trivial, hlt, trivial⟩

variable (tail ahead) in
theorem number_persists (c : Cursor) :
    Persists c.length ahead (·.2.rest = []) (Prod.map id (Cursor.within tail ahead)) c.number
      (c.within tail ahead).number := by
  by_cases hend : c.rest.dropWhile Char.isDigit = []
  · -- the number is not over before the text is
    have htake : c.rest.takeWhile Char.isDigit = c.rest := by
      have happend := List.takeWhile_append_dropWhile (l := c.rest) (p := Char.isDigit)
      rwa [hend, List.append_nil] at happend
    generalize (c.within tail ahead).number = y
    unfold Cursor.number
    dsimp only
    rw [htake]
    split
    · next hnone =>
      refine .undecided fun (hlt : c.offset < c.length) => ?_
      rw [Cursor.length, List.isEmpty_iff.1 hnone] at hlt
      exact Nat.lt_irrefl _ hlt
    · split
      · exact .done hend
      · exact .undecided (Nat.lt_irrefl _)
  · obtain ⟨htake, hdrop⟩ := digits_append tail c.rest fun h => absurd h hend
    unfold Cursor.number Cursor.within
    dsimp only
    rw [htake, hdrop, Nat.add_assoc]
    split
    · exact .error _
    · split
      · exact .ok (_, _)
      · exact .error _

/-! ## Bounds -/

theorem upperBound_of_comma {min offset : Nat} {rest : List Char} (h : rest.head? ≠ some '}') :
    Cursor.upperBound min ⟨',' :: rest, offset⟩ =
      (Cursor.number ⟨rest, offset + 1⟩).bind fun a => .ok (some a.1, a.2) := by
  unfold Cursor.upperBound
  split
  · next hc => cases hc; exact absurd rfl h
  · next hc =>
    cases hc
    cases Cursor.number ⟨rest, offset + 1⟩ <;> rfl
  · next hne => exact absurd rfl (hne _)

theorem upperBound_of_head?_ne {min : Nat} (h : c.rest.head? ≠ some ',') :
    c.upperBound min = .ok (some min, c) :=
  Cursor.upperBound_eq_ok.2 (.inr (.inr ⟨h, rfl, rfl⟩))

variable (tail ahead) in
theorem upperBound_persists (min : Nat) (c : Cursor) :
    Persists c.length ahead (·.2.rest = []) (Prod.map id (Cursor.within tail ahead))
      (c.upperBound min) ((c.within tail ahead).upperBound min) := by
  obtain ⟨_ | ⟨x, rest⟩, offset⟩ := c
  · exact .done rfl
  by_cases hx : x = ','
  · subst hx
    by_cases hclose : rest.head? = some '}'
    · obtain ⟨rest, rfl⟩ := List.head?_eq_some_iff.1 hclose
      exact .ok (none, Cursor.mk ('}' :: rest) (offset + 1))
    rw [upperBound_of_comma hclose]
    cases rest with
    | nil => exact .undecided (Nat.lt_irrefl (offset + 1))
    | cons y rest =>
      have hlonger : (Cursor.within tail ahead ⟨',' :: y :: rest, offset⟩).upperBound min =
          (Cursor.within tail ahead ⟨y :: rest, offset + 1⟩).number.bind
            fun a => .ok (some a.1, a.2) := by
        have hy : (y :: (rest ++ tail)).head? ≠ some '}' := hclose
        exact upperBound_of_comma hy
      have hlength : Cursor.length ⟨y :: rest, offset + 1⟩ = _ :=
        (Cursor.before_of_rest (c := ⟨',' :: y :: rest, offset⟩) rfl).length_eq
      rw [hlonger, ← hlength]
      exact (number_persists tail ahead _).bind (fun a _ => .ok (some a.1, a.2))
        fun a _ ha _ => .done ha
  · have hcomma : ∀ text : List Char, (x :: text).head? ≠ some ',' :=
      fun _ h => hx (Option.some.inj h)
    have hlonger : (Cursor.within tail ahead ⟨x :: rest, offset⟩).upperBound min =
        .ok (some min, Cursor.within tail ahead ⟨x :: rest, offset⟩) :=
      upperBound_of_head?_ne (hcomma _)
    rw [upperBound_of_head?_ne (hcomma rest), hlonger]
    exact .ok (some min, _)

/-- The closing brace of bounds whose numbers have been read. -/
def Cursor.closeBounds (opening min : Nat) (max : Option Nat) (c : Cursor) :
    Except Fault (Bounds × Cursor) :=
  match c.rest with
  | [] => .error ⟨.unexpectedEnd, c.offset⟩
  | '}' :: rest =>
    match max with
    | none => .ok (⟨min, none⟩, ⟨rest, c.offset + 1⟩)
    | some max =>
      if min ≤ max then .ok (⟨min, some max⟩, ⟨rest, c.offset + 1⟩)
      else .error ⟨.boundsInverted min max, opening⟩
  | _ => .error ⟨.unclosedBounds, c.offset⟩

theorem closeBounds_of_ne {opening min offset : Nat} {max : Option Nat} {x : Char}
    {rest : List Char} (hx : x ≠ '}') :
    Cursor.closeBounds opening min max ⟨x :: rest, offset⟩ = .error ⟨.unclosedBounds, offset⟩ := by
  unfold Cursor.closeBounds
  split
  · next hc => cases hc
  · next hc => exact absurd (List.cons.inj hc).1 hx
  · rfl

theorem bounds_eq_bind (opening : Nat) (c : Cursor) : c.bounds opening =
    c.number.bind fun a => (a.2.upperBound a.1).bind fun b => b.2.closeBounds opening a.1 b.1 := by
  unfold Cursor.bounds
  cases c.number with
  | error e => rfl
  | ok a =>
    dsimp only [Except.bind]
    cases a.2.upperBound a.1 <;> rfl

variable (tail ahead) in
theorem closeBounds_persists (opening min : Nat) (max : Option Nat) (c : Cursor) (n : Nat) :
    Persists n ahead (fun _ => False) (Prod.map id (Cursor.within tail ahead))
      (c.closeBounds opening min max)
      ((c.within tail ahead).closeBounds (ahead + opening) min max) := by
  obtain ⟨_ | ⟨x, rest⟩, offset⟩ := c
  · exact .undecided id
  by_cases hx : x = '}'
  · subst hx
    cases max with
    | none => exact .ok (Bounds.mk min none, Cursor.mk rest (offset + 1))
    | some max =>
      show Persists n ahead _ _ (if min ≤ max then _ else _) (if min ≤ max then _ else _)
      split
      · exact .ok (Bounds.mk min (some max), Cursor.mk rest (offset + 1))
      · exact .error ⟨.boundsInverted min max, opening⟩
  · have hlonger : (Cursor.within tail ahead ⟨x :: rest, offset⟩).closeBounds (ahead + opening)
        min max = .error ⟨.unclosedBounds, ahead + offset⟩ := closeBounds_of_ne hx
    rw [closeBounds_of_ne hx, hlonger]
    exact .error ⟨.unclosedBounds, offset⟩

variable (tail ahead) in
/-- **Bounds persist**: they end with their brace. -/
theorem bounds_persists (opening : Nat) (c : Cursor) :
    Persists c.length ahead (fun _ => False) (Prod.map id (Cursor.within tail ahead))
      (c.bounds opening) ((c.within tail ahead).bounds (ahead + opening)) := by
  -- where the text is over the brace is missing
  have hend : ∀ {min max d z}, d.rest = [] →
      Persists c.length ahead (fun _ => False) (Prod.map id (Cursor.within tail ahead))
        (Cursor.closeBounds opening min max d) z := by
    intro min max d z hd
    unfold Cursor.closeBounds
    rw [hd]
    exact .undecided id
  rw [bounds_eq_bind, bounds_eq_bind]
  refine (number_persists tail ahead c).bind (fun ⟨min, d⟩ hmin => ?_) fun ⟨min, d⟩ _ hd z => ?_
  · rw [← (Cursor.before_of_number hmin).length_eq] at hend ⊢
    exact (upperBound_persists tail ahead min d).bind
      (fun b _ => closeBounds_persists tail ahead opening min b.1 b.2 _) fun b _ hb _ => hend hb
  · rw [upperBound_of_head?_ne (by rw [show d.rest = [] from hd]; nofun)]
    show Persists _ _ _ _ (Cursor.closeBounds opening min (some min) d) z
    exact hend hd

variable (tail ahead) in
theorem counted_persists (opening : Nat) (c : Cursor) :
    Persists c.length ahead (fun _ => False) (Prod.map id (Cursor.within tail ahead))
      (c.counted opening) ((c.within tail ahead).counted (ahead + opening)) := by
  have hbind : ∀ opening (c : Cursor), c.counted opening =
      (c.bounds opening).bind fun a => .ok (.counted a.1, a.2) := by
    intro opening c
    unfold Cursor.counted
    cases c.bounds opening <;> rfl
  rw [hbind, hbind]
  exact (bounds_persists tail ahead opening c).bind (fun a _ => .ok (Quantifier.counted a.1, a.2))
    fun _ _ h => h.elim

/-! ## Classes -/

theorem classChar_within {x : Char} {escaped : Bool} (h : c.classChar = some (x, escaped, d)) :
    (c.within tail ahead).classChar = some (x, escaped, d.within tail ahead) := by
  obtain ⟨rest, offset⟩ := c
  unfold Cursor.classChar at h
  split at h
  · cases h
  · cases h
  · next hc =>
    obtain rfl : rest = _ := hc
    cases h
    rfl
  · next y rest' h1 h2 hc =>
    obtain rfl : rest = _ := hc
    cases h
    by_cases hx : x = '\\'
    · subst hx
      cases rest' with
      | nil => exact (h1 rfl rfl).elim
      | cons y rest' => exact (h2 y rest' rfl rfl).elim
    · unfold Cursor.classChar
      split
      · next hc => cases hc
      · next hc => exact absurd (List.cons.inj hc).1 hx
      · next hc => exact absurd (List.cons.inj hc).1 hx
      · next hc => cases hc; rfl

theorem offset_of_classChar {x : Char} (h : c.classChar = some (x, false, d)) :
    d.offset = c.offset + 1 := by
  unfold Cursor.classChar at h
  split at h <;> cases h
  rfl

section

variable {opening : Nat} {isFirst escaped : Bool} {found : List CharRange} {x : Char}

theorem ranges_close (hc : c.classChar = some (x, escaped, d))
    (hend : x = ']' ∧ !escaped ∧ !isFirst) :
    c.ranges opening isFirst found = .ok (found.reverse, d) := by
  rw [Cursor.ranges]
  split
  · next hn => rw [hc] at hn; cases hn
  · next hs =>
    rw [hc] at hs
    cases hs
    rw [if_pos hend]

/-- A list without end is refused, and so is a hyphen that is in the way. -/
theorem ranges_of_nil (hc : c.rest = []) :
    c.ranges opening isFirst found = .error ⟨.unclosedClass, opening⟩ := by
  have hnone : c.classChar = none := by
    unfold Cursor.classChar
    rw [hc]
  rw [Cursor.ranges]
  split
  · rfl
  · next hs => rw [hnone] at hs; cases hs

theorem ranges_stray (hc : c.classChar = some (x, escaped, d))
    (hend : ¬ (x = ']' ∧ !escaped ∧ !isFirst))
    (hhyphen : x = '-' ∧ !escaped ∧ !isFirst ∧ d.rest.head? ≠ some ']') :
    c.ranges opening isFirst found = .error ⟨.strayHyphen, c.offset⟩ := by
  rw [Cursor.ranges]
  split
  · next hn => rw [hc] at hn; cases hn
  · next hs =>
    rw [hc] at hs
    cases hs
    rw [if_neg hend, if_pos hhyphen]

variable (hc : c.classChar = some (x, escaped, d)) (hend : ¬ (x = ']' ∧ !escaped ∧ !isFirst))
  (hhyphen : ¬ (x = '-' ∧ !escaped ∧ !isFirst ∧ d.rest.head? ≠ some ']'))

include hc hend hhyphen

theorem ranges_hyphen {rest : List Char} (hd : d.rest = '-' :: ']' :: rest) :
    c.ranges opening isFirst found =
      Cursor.ranges opening false (.single '-' :: .single x :: found)
        ⟨']' :: rest, d.offset + 1⟩ := by
  rw [Cursor.ranges]
  split
  · next hn => rw [hc] at hn; cases hn
  · next hs =>
    rw [hc] at hs
    cases hs
    rw [if_neg hend, if_neg hhyphen]
    split
    · next hd' => rw [hd] at hd'; cases hd'; rfl
    · next hne hd' => rw [hd] at hd'; cases hd'; exact absurd rfl (hne _)
    · next hne => exact absurd hd (hne _)

theorem ranges_range {y : Char} {escaped' : Bool} {e : Cursor} {rest : List Char}
    (hd : d.rest = '-' :: rest) (hr : rest.head? ≠ some ']')
    (hy : Cursor.classChar ⟨rest, d.offset + 1⟩ = some (y, escaped', e)) :
    c.ranges opening isFirst found = if x ≤ y then e.ranges opening false (⟨x, y⟩ :: found)
      else .error ⟨.rangeInverted x y, c.offset⟩ := by
  rw [Cursor.ranges]
  split
  · next hn => rw [hc] at hn; cases hn
  · next hs =>
    rw [hc] at hs
    cases hs
    rw [if_neg hend, if_neg hhyphen]
    split
    · next hd' => rw [hd] at hd'; cases hd'; exact absurd rfl hr
    · next hd' =>
      rw [hd] at hd'
      cases hd'
      split
      · next hn => rw [hy] at hn; cases hn
      · next hs => rw [hy] at hs; cases hs; rfl
    · next hne => exact absurd hd (hne _)

theorem ranges_single (hd : d.rest.head? ≠ some '-') :
    c.ranges opening isFirst found = d.ranges opening false (.single x :: found) := by
  rw [Cursor.ranges]
  split
  · next hn => rw [hc] at hn; cases hn
  · next hs =>
    rw [hc] at hs
    cases hs
    rw [if_neg hend, if_neg hhyphen]
    split
    · next hd' => rw [hd'] at hd; exact absurd rfl hd
    · next hd' => rw [hd'] at hd; exact absurd rfl hd
    · rfl

end

theorem ranges_range_within {opening : Nat} {isFirst escaped escaped' : Bool}
    {found : List CharRange} {x y : Char} {e : Cursor} {rest : List Char}
    (hc : c.classChar = some (x, escaped, d)) (hend : ¬ (x = ']' ∧ !escaped ∧ !isFirst))
    (hhyphen : ¬ (x = '-' ∧ !escaped ∧ !isFirst ∧ d.rest.head? ≠ some ']'))
    (hd : d.rest = '-' :: rest) (hne : ∀ rest', rest ≠ ']' :: rest')
    (hy : Cursor.classChar ⟨rest, d.offset + 1⟩ = some (y, escaped', e)) :
    (c.within tail ahead).ranges opening isFirst found =
      if x ≤ y then (e.within tail ahead).ranges opening false (⟨x, y⟩ :: found)
      else .error ⟨.rangeInverted x y, ahead + c.offset⟩ := by
  have hd' : (d.within tail ahead).rest = '-' :: (rest ++ tail) := by
    rw [Cursor.within, hd]
    rfl
  have hrest : rest ≠ [] := by
    rintro rfl
    cases hy
  have hr : (rest ++ tail).head? ≠ some ']' := by
    rw [List.head?_append_of_ne_nil _ hrest, ne_eq, List.head?_eq_some_iff]
    rintro ⟨rest', hr⟩
    exact hne rest' hr
  rw [← @List.head?_append_of_ne_nil _ _ tail (hd ▸ List.cons_ne_nil _ _)] at hhyphen
  exact ranges_range (classChar_within hc) hend hhyphen hd' hr (classChar_within hy)

variable (tail ahead) in
theorem ranges_persists (opening opening' : Nat) (isFirst : Bool) (found : List CharRange)
    (c : Cursor) : Persists c.length ahead (fun _ => False) (Prod.map id (Cursor.within tail ahead))
      (c.ranges opening isFirst found) ((c.within tail ahead).ranges opening' isFirst found) := by
  fun_induction Cursor.ranges opening isFirst found c with
  | case1 | case5 => exact .undecided id
  | case2 _ _ _ _ _ d hc hend =>
    rw [ranges_close (classChar_within hc) hend]
    exact .ok (_, d)
  | case3 _ _ c x escaped d hc hend hhyphen =>
    by_cases hd : d.rest = []
    · -- the hyphen is the last character of the text
      refine .undecided fun (hlt : c.offset + 1 < c.length) => ?_
      obtain ⟨-, hescaped, -⟩ := hhyphen
      obtain rfl : escaped = false := by simpa using hescaped
      rw [← (Cursor.before_of_classChar hc).length_eq, Cursor.length, hd,
        offset_of_classChar hc] at hlt
      exact Nat.lt_irrefl _ hlt
    · rw [← @List.head?_append_of_ne_nil _ _ tail hd] at hhyphen
      rw [ranges_stray (classChar_within hc) hend hhyphen]
      exact .error ⟨.strayHyphen, c.offset⟩
  | case4 _ _ c x _ d hc hend hhyphen rest hd ih =>
    have hd' : (d.within tail ahead).rest = '-' :: ']' :: (rest ++ tail) := by
      rw [Cursor.within, hd]
      rfl
    rw [← @List.head?_append_of_ne_nil _ _ tail (hd ▸ List.cons_ne_nil _ _)] at hhyphen
    rw [((Cursor.before_of_classChar hc).trans (Cursor.before_of_rest hd)).length_eq] at ih
    rw [ranges_hyphen (classChar_within hc) hend hhyphen hd']
    exact ih
  | case6 _ _ c x _ d hc hend hhyphen rest hne hd y _ e hy hle ih =>
    have hbefore := (Cursor.before_of_rest hd).trans (Cursor.before_of_classChar hy)
    rw [((Cursor.before_of_classChar hc).trans hbefore).length_eq] at ih
    rw [ranges_range_within hc hend hhyphen hd hne hy, if_pos hle]
    exact ih
  | case7 _ _ c x _ d hc hend hhyphen rest hne hd y _ e hy hgt =>
    rw [ranges_range_within hc hend hhyphen hd hne hy, if_neg hgt]
    exact .error ⟨.rangeInverted x y, c.offset⟩
  | case8 _ _ c x _ d hc hend hhyphen h1 h2 ih =>
    rw [(Cursor.before_of_classChar hc).length_eq] at ih
    by_cases hd : d.rest = []
    · rw [ranges_of_nil hd]
      exact .undecided id
    · rw [← @List.head?_append_of_ne_nil _ _ tail hd] at hhyphen
      have hsingle : (d.within tail ahead).rest.head? ≠ some '-' := by
        rw [Cursor.within, List.head?_append_of_ne_nil _ hd, ne_eq, List.head?_eq_some_iff]
        rintro ⟨rest, hd⟩
        exact h2 rest hd
      rw [ranges_single (classChar_within hc) hend hhyphen hsingle]
      exact ih

theorem caret_within (h : c.rest ≠ []) :
    (c.within tail ahead).caret = (c.caret.1, c.caret.2.within tail ahead) := by
  obtain ⟨_ | ⟨x, rest⟩, offset⟩ := c
  · exact absurd rfl h
  · by_cases hx : x = '^'
    · subst hx
      rfl
    · unfold Cursor.caret
      split
      · next hc => exact absurd (List.cons.inj hc).1 hx
      · split
        · next hc => exact absurd (List.cons.inj hc).1 hx
        · rfl

theorem length_caret (c : Cursor) : c.caret.2.length = c.length := by
  unfold Cursor.caret
  split
  · next hc => exact (Cursor.before_of_rest hc).length_eq
  · rfl

variable (tail ahead) in
/-- **Classes persist**: they end with their bracket. -/
theorem bracket_persists (opening opening' : Nat) (c : Cursor) :
    Persists c.length ahead (fun _ => False) (Prod.map id (Cursor.within tail ahead))
      (c.bracket opening) ((c.within tail ahead).bracket opening') := by
  have hbind : ∀ opening (c : Cursor), c.bracket opening =
      (c.caret.2.ranges opening true []).bind fun a => .ok (⟨c.caret.1, a.1⟩, a.2) := by
    intro opening c
    unfold Cursor.bracket
    cases c.caret.2.ranges opening true [] <;> rfl
  rw [hbind, hbind]
  by_cases hc : c.rest = []
  · have hcaret : c.caret.2.rest = [] := by
      unfold Cursor.caret
      split
      · next hcaret => rw [hc] at hcaret; cases hcaret
      · exact hc
    rw [ranges_of_nil hcaret]
    exact .undecided id
  · have hranges := ranges_persists tail ahead opening opening' true [] c.caret.2
    rw [length_caret] at hranges
    rw [caret_within hc]
    exact hranges.bind (fun a _ => .ok (CharClass.mk c.caret.1 a.1, a.2)) fun _ _ h => h.elim

/-! ## What is read without a fault -/

theorem counted_within {opening : Nat} {q : Quantifier} (h : c.counted opening = .ok (q, d)) :
    (c.within tail ahead).counted (ahead + opening) = .ok (q, d.within tail ahead) :=
  (counted_persists tail ahead opening c).eq_ok h

theorem bracket_within {opening opening' : Nat} {k : CharClass}
    (h : c.bracket opening = .ok (k, d)) :
    (c.within tail ahead).bracket opening' = .ok (k, d.within tail ahead) :=
  (bracket_persists tail ahead opening opening' c).eq_ok h

end

end PatternGraph
