import Mathlib.Logic.ExistsUnique
import PatternGraph.Pattern.Cursor

/-!
# Numbers in a pattern

A number is the run of decimal digits that stands at a place of a pattern, as far as it goes. There
may be any number of leading zeros, but the value has to fit in 32 bits. While the digits are read
it is held at the first number that does not fit.

* `decimalValue_eq`: the value that has been held is that of the run, or the limit;
* `DigitRun`: the run at the beginning of a text, `digitRun_iff`: there is exactly one;
* **`number_of_digitRun`**: what becomes of a run, with the place where the reader stops;
* **`number_reads_run`**: that at any place, and numbers that have been written out.
-/

namespace PatternGraph

/-! ## The value of a run -/

/-- The value is held at the limit, so it does not matter when it gets there. -/
theorem min_foldl_digitValue (digits : List Char) : ∀ n : Nat,
    digits.foldl (fun n d => min numberLimit (10 * n + digitValue d)) (min numberLimit n) =
      min numberLimit (Nat.ofDigitChars 10 digits n) := by
  induction digits with
  | nil => intro n; rw [Nat.ofDigitChars_nil, List.foldl_nil]
  | cons d digits ih =>
    intro n
    have hstep : min numberLimit (10 * min numberLimit n + digitValue d) =
        min numberLimit (10 * n + digitValue d) := by omega
    rw [List.foldl_cons, hstep, ih, Nat.ofDigitChars_cons]
    rfl

theorem decimalValue_eq (digits : List Char) :
    decimalValue digits = min numberLimit (Nat.ofDigitChars 10 digits 0) := by
  have h := min_foldl_digitValue digits 0
  rwa [Nat.min_zero] at h

/-! ## The run at a place -/

/-- The text begins with these digits, and what is left behind them does not begin with one. -/
structure DigitRun (text digits after : List Char) : Prop where
  text_eq : text = digits ++ after
  isDigit : ∀ d ∈ digits, d.isDigit
  maximal : ∀ x ∈ after.head?, x.isDigit = false

theorem takeWhile_digits {digits rest : List Char} (hd : ∀ x ∈ digits, x.isDigit)
    (hr : ∀ x ∈ rest.head?, x.isDigit = false) :
    (digits ++ rest).takeWhile Char.isDigit = digits ∧
      (digits ++ rest).dropWhile Char.isDigit = rest := by
  have hrest : rest.takeWhile Char.isDigit = [] ∧ rest.dropWhile Char.isDigit = rest := by
    cases rest with
    | nil => exact ⟨rfl, rfl⟩
    | cons x rest => simp [hr x rfl]
  exact ⟨by rw [List.takeWhile_append_of_pos hd, hrest.1, List.append_nil],
    by rw [List.dropWhile_append_of_pos hd, hrest.2]⟩

theorem isDigit_dropWhile (text : List Char) :
    ∀ x ∈ (text.dropWhile Char.isDigit).head?, x.isDigit = false := by
  intro x hx
  have hhead := List.head?_dropWhile_not Char.isDigit text
  rwa [Option.mem_def.1 hx] at hhead

theorem digitRun_iff {text digits after : List Char} : DigitRun text digits after ↔
    digits = text.takeWhile Char.isDigit ∧ after = text.dropWhile Char.isDigit := by
  constructor
  · rintro ⟨rfl, hd, hmax⟩
    obtain ⟨htake, hdrop⟩ := takeWhile_digits hd hmax
    exact ⟨htake.symm, hdrop.symm⟩
  · rintro ⟨rfl, rfl⟩
    exact ⟨List.takeWhile_append_dropWhile.symm, List.all_eq_true.1 List.all_takeWhile,
      isDigit_dropWhile text⟩

theorem digitRun_toDigits (zeros n : Nat) {after : List Char}
    (h : ∀ x ∈ after.head?, x.isDigit = false) :
    DigitRun (List.replicate zeros '0' ++ Nat.toDigits 10 n ++ after)
      (List.replicate zeros '0' ++ Nat.toDigits 10 n) after := by
  refine ⟨rfl, fun d hd => ?_, h⟩
  rcases List.mem_append.1 hd with hd | hd
  · rw [List.eq_of_mem_replicate hd]
    rfl
  · exact Nat.isDigit_of_mem_toDigits (by decide) (by decide) hd

theorem ofDigitChars_toDigits_zeros (zeros n : Nat) :
    Nat.ofDigitChars 10 (List.replicate zeros '0' ++ Nat.toDigits 10 n) 0 = n := by
  rw [Nat.ofDigitChars_append, Nat.ofDigitChars_replicate_zero, Nat.mul_zero,
    Nat.ofDigitChars_ten_toDigits]

/-! ## What is read -/

/-- **A run of digits is read to its end.** Without digits there is no number, and with a value that
does not fit there is none either, which is noticed behind the run. -/
theorem Cursor.number_of_digitRun {c : Cursor} {digits after : List Char}
    (h : DigitRun c.rest digits after) :
    c.number =
      if digits = [] then .error ⟨.numberExpected, c.offset⟩
      else if Nat.ofDigitChars 10 digits 0 < UInt32.size then
        .ok (Nat.ofDigitChars 10 digits 0, ⟨after, c.offset + digits.length⟩)
      else .error ⟨.numberExpected, c.offset + digits.length⟩ := by
  obtain ⟨hdigits, hafter⟩ := digitRun_iff.1 h
  have hvalue : decimalValue digits < numberLimit ↔ Nat.ofDigitChars 10 digits 0 < UInt32.size := by
    rw [decimalValue_eq, numberLimit]
    omega
  rw [number, ← hdigits, ← hafter]
  by_cases hnil : digits = []
  · simp [hnil]
  rw [if_neg (by simpa using hnil), if_neg hnil]
  by_cases hlt : Nat.ofDigitChars 10 digits 0 < UInt32.size
  · have heq : decimalValue digits = Nat.ofDigitChars 10 digits 0 := by
      rw [decimalValue_eq, numberLimit]
      omega
    rw [if_pos (hvalue.2 hlt), if_pos hlt, heq]
  · rw [if_neg (mt hvalue.1 hlt), if_neg hlt]

/-- **A number is read as far as its digits go.** At every place of a text there is one run of
digits, which may be empty. If it is not, and if its value fits in 32 bits, that value is read,
and the reader stops right behind the run. If it is empty, the fault is at the place itself; if the
value is too large, behind the run. So each number of 32 bits that has been written out is read
again, whatever the number of zeros in front of it, unless a digit follows. -/
theorem number_reads_run :
    (∀ c : Cursor, (∃! run : List Char × List Char, DigitRun c.rest run.1 run.2) ∧
      ∀ digits after, DigitRun c.rest digits after →
        (digits ≠ [] → Nat.ofDigitChars 10 digits 0 < UInt32.size →
          c.number = .ok (Nat.ofDigitChars 10 digits 0, ⟨after, c.offset + digits.length⟩)) ∧
        (digits = [] → c.number = .error ⟨.numberExpected, c.offset⟩) ∧
        (UInt32.size ≤ Nat.ofDigitChars 10 digits 0 →
          c.number = .error ⟨.numberExpected, c.offset + digits.length⟩)) ∧
    ∀ (n : UInt32) (zeros offset : Nat) (after : List Char),
      (∀ x ∈ after.head?, x.isDigit = false) →
        Cursor.number ⟨List.replicate zeros '0' ++ Nat.toDigits 10 n.toNat ++ after, offset⟩ =
          .ok (n.toNat, ⟨after, offset + (zeros + (Nat.toDigits 10 n.toNat).length)⟩) := by
  refine ⟨fun c => ⟨?_, fun digits after h => ?_⟩, fun n zeros offset after h => ?_⟩
  · refine ⟨(_, _), digitRun_iff.2 ⟨rfl, rfl⟩, fun run hrun => ?_⟩
    obtain ⟨hdigits, hafter⟩ := digitRun_iff.1 hrun
    exact Prod.ext hdigits hafter
  · have hread := Cursor.number_of_digitRun h
    refine ⟨fun hne hlt => ?_, fun hnil => ?_, fun hle => ?_⟩
    · rw [hread, if_neg hne, if_pos hlt]
    · rw [hread, if_pos hnil]
    · have hne : digits ≠ [] := by
        rintro rfl
        exact absurd hle (by decide)
      rw [hread, if_neg hne, if_neg (Nat.not_lt.2 hle)]
  · have hvalue := ofDigitChars_toDigits_zeros zeros n.toNat
    have hne : List.replicate zeros '0' ++ Nat.toDigits 10 n.toNat ≠ [] :=
      List.append_ne_nil_of_right_ne_nil _ Nat.toDigits_ne_nil
    have hread := Cursor.number_of_digitRun (c := ⟨_, offset⟩) (digitRun_toDigits zeros n.toNat h)
    rw [hvalue, if_neg hne, if_pos n.toNat_lt_size, List.length_append,
      List.length_replicate] at hread
    exact hread

/-- The largest number that fits, with zeros in front of it, and the one behind it. -/
theorem number_reads_run_limit :
    Cursor.number ⟨"004294967295\x7d".toList, 2⟩ = .ok (4294967295, ⟨['}'], 14⟩) ∧
      Cursor.number ⟨"4294967296\x7d".toList, 2⟩ = .error ⟨.numberExpected, 12⟩ := by
  obtain ⟨hrun, hwritten⟩ := number_reads_run
  constructor
  · exact hwritten 4294967295 2 2 ['}'] (by simp)
  · obtain ⟨-, -, hlarge⟩ := (hrun ⟨"4294967296\x7d".toList, 2⟩).2 "4294967296".toList ['}']
      ⟨rfl, by simp, by simp⟩
    exact hlarge (by decide)

end PatternGraph
