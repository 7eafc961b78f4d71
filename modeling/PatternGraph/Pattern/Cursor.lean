import PatternGraph.Pattern.Basic
import PatternGraph.Pattern.Error

/-!
# Reading a pattern from left to right

* `Cursor`: what is still unread of a pattern, and how much has been read;
* `Cursor.Before`: one cursor comes from another by reading on, at least one character;
* `Cursor.number`, `Cursor.bounds`: a decimal number, the rest of a counted quantifier;
* `number_eq_ok`, `bounds_eq_ok`: what has been read when one of them succeeds.
-/

namespace PatternGraph

/-- A place in a pattern: the characters behind it and the number of those in front. -/
structure Cursor where
  rest : List Char
  offset : Nat

namespace Cursor

/-- The start of a text. -/
def ofList (text : List Char) : Cursor := ⟨text, 0⟩

/-- `d` is reached from `c` by reading one character or more. -/
def Before (c d : Cursor) : Prop :=
  ∃ read : List Char, read ≠ [] ∧ c.rest = read ++ d.rest ∧ d.offset = c.offset + read.length

theorem Before.trans {c d e : Cursor} (h : c.Before d) (h' : d.Before e) : c.Before e := by
  obtain ⟨r, hr, hc, ho⟩ := h
  obtain ⟨r', -, hd, ho'⟩ := h'
  exact ⟨r ++ r', by simp [hr], by simp [hc, hd], by simp [ho, ho']; omega⟩

theorem Before.length_lt {c d : Cursor} (h : c.Before d) : d.rest.length < c.rest.length := by
  obtain ⟨r, hr, hc, -⟩ := h
  have := List.length_pos_iff.2 hr
  simp [hc]; omega

theorem before_of_rest {c : Cursor} {x : Char} {rest : List Char} (h : c.rest = x :: rest) :
    c.Before ⟨rest, c.offset + 1⟩ :=
  ⟨[x], by simp, h, rfl⟩

end Cursor

/-! ## Numbers -/

/-- The first number that is too large for a bound or a group. -/
def numberLimit : Nat := UInt32.size

/-- The number that a digit stands for. -/
def digitValue (d : Char) : Nat := d.toNat - '0'.toNat

/-- The value of a run of decimal digits, held at `numberLimit` once it gets that far. -/
def decimalValue (digits : List Char) : Nat :=
  digits.foldl (fun n d => min numberLimit (10 * n + digitValue d)) 0

namespace Cursor

/-- Reads all digits that follow. There has to be one, and their value has to be below
`numberLimit`; a number that is too large is reported behind its last digit. -/
def number (c : Cursor) : Except Fault (Nat × Cursor) :=
  let digits := c.rest.takeWhile Char.isDigit
  let after : Cursor := ⟨c.rest.dropWhile Char.isDigit, c.offset + digits.length⟩
  if digits.isEmpty then .error ⟨.numberExpected, c.offset⟩
  else if decimalValue digits < numberLimit then .ok (decimalValue digits, after)
  else .error ⟨.numberExpected, after.offset⟩

example : number ⟨['0', '4', '2', 'x'], 3⟩ = .ok (42, ⟨['x'], 6⟩) := by cbv

theorem number_eq_ok {c d : Cursor} {n : Nat} : c.number = .ok (n, d) ↔
    c.rest.takeWhile Char.isDigit ≠ [] ∧ n = decimalValue (c.rest.takeWhile Char.isDigit) ∧
      n < numberLimit ∧
      d = ⟨c.rest.dropWhile Char.isDigit, c.offset + (c.rest.takeWhile Char.isDigit).length⟩ := by
  unfold number
  constructor
  · intro h
    dsimp only at h
    split at h
    · simp at h
    · next hd =>
      split at h
      · next hlt =>
        cases h
        exact ⟨by simpa using hd, rfl, hlt, rfl⟩
      · simp at h
  · rintro ⟨hd, rfl, hlt, rfl⟩
    simp [hd, hlt]

theorem before_of_number {c d : Cursor} {n : Nat} (h : c.number = .ok (n, d)) : c.Before d := by
  obtain ⟨hd, -, -, rfl⟩ := number_eq_ok.1 h
  exact ⟨c.rest.takeWhile Char.isDigit, hd, by simp, rfl⟩

/-! ## Bounds -/

/-- Reads what follows the minimum: nothing, a comma, or a comma and the maximum. -/
def upperBound (min : Nat) (c : Cursor) : Except Fault (Option Nat × Cursor) :=
  match c.rest with
  | ',' :: '}' :: rest => .ok (none, ⟨'}' :: rest, c.offset + 1⟩)
  | ',' :: rest =>
    match number ⟨rest, c.offset + 1⟩ with
    | .error e => .error e
    | .ok (max, d) => .ok (some max, d)
  | _ => .ok (some min, c)

/-- There are three ways to go on behind the minimum. -/
theorem upperBound_eq_ok {c d : Cursor} {min : Nat} {max : Option Nat} :
    c.upperBound min = .ok (max, d) ↔
      (∃ rest, c.rest = ',' :: '}' :: rest ∧ max = none ∧ d = ⟨'}' :: rest, c.offset + 1⟩) ∨
      (∃ rest n, c.rest = ',' :: rest ∧ rest.head? ≠ some '}' ∧ max = some n ∧
        number ⟨rest, c.offset + 1⟩ = .ok (n, d)) ∨
      c.rest.head? ≠ some ',' ∧ max = some min ∧ d = c := by
  constructor
  · intro h
    unfold upperBound at h
    split at h
    · next rest hc =>
      cases h
      exact .inl ⟨rest, hc, rfl, rfl⟩
    · next rest hne hc =>
      split at h
      · simp at h
      · next n e hn =>
        cases h
        refine .inr (.inl ⟨rest, n, hc, fun hhead => ?_, rfl, hn⟩)
        obtain ⟨more, rfl⟩ := List.head?_eq_some_iff.1 hhead
        exact hne more rfl
    · next hne =>
      cases h
      refine .inr (.inr ⟨fun hhead => ?_, rfl, rfl⟩)
      obtain ⟨more, hc⟩ := List.head?_eq_some_iff.1 hhead
      exact hne more hc
  · rintro (⟨rest, hc, rfl, rfl⟩ | ⟨rest, n, hc, hne, rfl, hn⟩ | ⟨hne, rfl, rfl⟩)
    · simp [upperBound, hc]
    · unfold upperBound
      rw [hc]
      split
      · next h => simp_all
      · next h => cases h; simp [hn]
      · next h => exact absurd rfl (h rest)
    · unfold upperBound
      split
      · next hc => simp [hc] at hne
      · next hc => simp [hc] at hne
      · rfl

theorem before_of_upperBound {c d : Cursor} {min : Nat} {max : Option Nat}
    (h : c.upperBound min = .ok (max, d)) : d = c ∨ c.Before d := by
  rcases upperBound_eq_ok.1 h with ⟨rest, hc, -, rfl⟩ | ⟨rest, n, hc, -, -, hn⟩ | ⟨-, -, rfl⟩
  · exact .inr (before_of_rest hc)
  · exact .inr ((before_of_rest hc).trans (before_of_number hn))
  · exact .inl rfl

/-- Reads the bounds behind an opening brace, with their closing one. Bounds in the wrong order
are reported at `opening`, where the opening brace stands. -/
def bounds (opening : Nat) (c : Cursor) : Except Fault (Bounds × Cursor) :=
  match c.number with
  | .error e => .error e
  | .ok (min, d) =>
    match d.upperBound min with
    | .error e => .error e
    | .ok (max, e) =>
      match e.rest with
      | [] => .error ⟨.unexpectedEnd, e.offset⟩
      | '}' :: rest =>
        match max with
        | none => .ok (⟨min, none⟩, ⟨rest, e.offset + 1⟩)
        | some max =>
          if min ≤ max then .ok (⟨min, some max⟩, ⟨rest, e.offset + 1⟩)
          else .error ⟨.boundsInverted min max, opening⟩
      | _ => .error ⟨.unclosedBounds, e.offset⟩

theorem bounds_eq_ok {opening : Nat} {b : Bounds} {c d : Cursor} :
    c.bounds opening = .ok (b, d) ↔ ∃ e e', c.number = .ok (b.min, e) ∧
      e.upperBound b.min = .ok (b.max, e') ∧ e'.rest = '}' :: d.rest ∧ d.offset = e'.offset + 1 ∧
      ∀ max ∈ b.max, b.min ≤ max := by
  constructor
  · intro h
    unfold bounds at h
    split at h
    · simp at h
    next min e hn =>
    split at h
    · simp at h
    next max e' hu =>
    split at h
    · simp at h
    · next rest hr =>
      split at h
      · cases h
        exact ⟨e, e', hn, hu, hr, rfl, by simp⟩
      · split at h
        · next hle =>
          cases h
          exact ⟨e, e', hn, hu, hr, rfl, by simpa using hle⟩
        · simp at h
    · simp at h
  · rintro ⟨e, e', hn, hu, hr, ho, hle⟩
    obtain ⟨low, max⟩ := b
    obtain ⟨rest, offset⟩ := d
    cases max with
    | none => simp_all [bounds]
    | some high => simp_all [bounds]

theorem before_of_bounds {opening : Nat} {b : Bounds} {c d : Cursor}
    (h : c.bounds opening = .ok (b, d)) : c.Before d := by
  obtain ⟨e, e', hn, hu, hr, ho, -⟩ := bounds_eq_ok.1 h
  have he := (before_of_upperBound hu).elim (· ▸ before_of_number hn)
    (before_of_number hn).trans
  have hd : d = ⟨d.rest, e'.offset + 1⟩ := by rw [← ho]
  rw [hd]
  exact he.trans (before_of_rest hr)

/-- The bounds behind an opening brace, as a quantifier. -/
def counted (opening : Nat) (c : Cursor) : Except Fault (Quantifier × Cursor) :=
  match c.bounds opening with
  | .error e => .error e
  | .ok (b, d) => .ok (.counted b, d)

theorem counted_eq_ok {opening : Nat} {q : Quantifier} {c d : Cursor} :
    c.counted opening = .ok (q, d) ↔ ∃ b, c.bounds opening = .ok (b, d) ∧ q = .counted b := by
  constructor
  · intro h
    unfold counted at h
    split at h
    · simp at h
    · next b e hb =>
      cases h
      exact ⟨b, hb, rfl⟩
  · rintro ⟨b, hb, rfl⟩
    simp [counted, hb]

theorem before_of_counted {opening : Nat} {q : Quantifier} {c d : Cursor}
    (h : c.counted opening = .ok (q, d)) : c.Before d := by
  obtain ⟨b, hb, -⟩ := counted_eq_ok.1 h
  exact before_of_bounds hb

end Cursor

end PatternGraph
