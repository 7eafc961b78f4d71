import PatternGraph.Graph.Display
import PatternGraph.Proofs.Pattern.Digits
import PatternGraph.Proofs.Pattern.Surrounded

/-!
# Reading a pattern in parentheses

A pattern in parentheses is one group, and the groups inside are given the next numbers.

* `eq_of_number_toDigits`, **`eq_of_counted_display`**: what has been written out is read again;
* **`read_enclosed`**: a pattern in parentheses and with bounds behind them.
-/

namespace PatternGraph

/-! ## Numbers that have been written out -/

theorem eq_of_number_toDigits {m n offset : Nat} {rest : List Char} {d : Cursor}
    (hr : ∀ x ∈ rest.head?, x.isDigit = false)
    (h : Cursor.number ⟨Nat.toDigits 10 n ++ rest, offset⟩ = .ok (m, d)) :
    m = n ∧ d.rest = rest := by
  have hread := Cursor.number_of_digitRun (c := ⟨_, offset⟩) (digitRun_toDigits 0 n hr)
  have hread := hread.symm.trans h
  rw [ofDigitChars_toDigits_zeros, if_neg (List.append_ne_nil_of_right_ne_nil _ Nat.toDigits_ne_nil)]
    at hread
  split at hread
  · cases hread
    exact ⟨rfl, rfl⟩
  · cases hread

/-- What stands in braces behind the minimum. -/
def upperDigits : Option Nat → List Char
  | some max => ',' :: (Nat.toDigits 10 max ++ ['}'])
  | none => [',', '}']

theorem Bounds.toList_display (b : Bounds) :
    b.display.toList = '{' :: (Nat.toDigits 10 b.min ++ upperDigits b.max) := by
  obtain ⟨low, _ | high⟩ := b
  · simp [Bounds.display, upperDigits, toString]
  · simp [Bounds.display, upperDigits, toString]

theorem eq_of_upperBound_upperDigits {min offset : Nat} {max max' : Option Nat} {d : Cursor}
    (h : Cursor.upperBound min ⟨upperDigits max, offset⟩ = .ok (max', d)) :
    max' = max ∧ d.rest = ['}'] := by
  cases max with
  | none =>
    cases h
    exact ⟨rfl, rfl⟩
  | some high =>
    rcases Cursor.upperBound_eq_ok.1 h with ⟨rest, hc, -, -⟩ | ⟨rest, n, hc, -, rfl, hn⟩ | ⟨hne, -⟩
    · -- a digit is no closing brace
      have hc : Nat.toDigits 10 high ++ ['}'] = '}' :: rest := (List.cons.inj hc).2
      obtain ⟨x, digits, hx⟩ :=
        List.exists_cons_of_ne_nil (Nat.toDigits_ne_nil (n := high) (b := 10))
      have hdigit : x.isDigit :=
        Nat.isDigit_of_mem_toDigits (by decide) (by decide) (hx ▸ List.mem_cons_self)
      rw [hx] at hc
      rw [(List.cons.inj hc).1] at hdigit
      exact absurd hdigit (by decide)
    · obtain rfl := (List.cons.inj hc).2
      obtain ⟨rfl, hd⟩ := eq_of_number_toDigits (by simp) hn
      exact ⟨rfl, hd⟩
    · exact absurd rfl hne

/-- **Bounds that have been written out are read again.** -/
theorem eq_of_counted_display {b : Bounds} {opening offset : Nat} {q : Quantifier} {d : Cursor}
    (h : Cursor.counted opening ⟨Nat.toDigits 10 b.min ++ upperDigits b.max, offset⟩ = .ok (q, d)) :
    q = .counted b ∧ d.rest = [] := by
  obtain ⟨⟨low, max⟩, hb, rfl⟩ := Cursor.counted_eq_ok.1 h
  obtain ⟨⟨rest, offset'⟩, e', hmin, hmax, hr, -, -⟩ := Cursor.bounds_eq_ok.1 hb
  have hdigit : ∀ x ∈ (upperDigits b.max).head?, x.isDigit = false := by
    cases b.max with
    | none => simp [upperDigits]
    | some high => simp [upperDigits]
  obtain ⟨hlow, he⟩ := eq_of_number_toDigits hdigit hmin
  obtain rfl : rest = upperDigits b.max := he
  obtain ⟨hhigh, he'⟩ := eq_of_upperBound_upperDigits hmax
  rw [he'] at hr
  obtain rfl : low = b.min := hlow
  obtain rfl : max = b.max := hhigh
  exact ⟨rfl, (List.cons.inj hr).2.symm⟩

/-! ## A pattern in parentheses -/

/-- A group whose parenthesis begins the text goes round the pattern. -/
def Surroundings.group (tail : List Char) (h : Delimits tail) : Surroundings where
  ahead := 1
  groups := 1
  number k := k + 1
  branches := []
  around := [⟨1, 0, {}⟩]
  tail
  number_succ k := by rw [Nat.add_comm 1]
  delimits := h

/-- **In parentheses and with bounds behind them a pattern is one group, which is counted.** -/
theorem read_enclosed {limits limits' : Limits} {text : List Char} {b : Bounds} {p p' : Pattern}
    (hp : Pattern.read limits text = .ok p)
    (hp' : Pattern.read limits' ('(' :: (text ++ ')' :: b.display.toList)) = .ok p') :
    p' = ⟨[[.atom (.group 1 (Branches.renumber (· + 1) p.branches)) (some (.counted b))]],
      p.groups + 1⟩ := by
  obtain ⟨-, t, ht, ho, rfl⟩ := Pattern.read_eq_ok.1 hp
  obtain ⟨-, t', ht', -, rfl⟩ := Pattern.read_eq_ok.1 hp'
  have hdelimits : Delimits (')' :: b.display.toList) := fun x hx => .inl (Option.some.inj hx).symm
  -- the opening parenthesis
  obtain ⟨r', hr', ht'⟩ := Reading.exists_next_of_toEnd ht' rfl
  have hinside : (Reading.ofList text).Inside (.group _ hdelimits) r' := by
    obtain ⟨-, -, rfl⟩ := Reading.openGroup_eq_ok.1 hr'
    exact ⟨rfl, rfl, rfl⟩
  -- the pattern inside
  obtain ⟨s, hs, hrest, ht'⟩ := hinside.toEnd ht ht'
  have hplace := hs.place
  rw [ho, Surroundings.place] at hplace
  obtain ⟨hscope, hopened⟩ := Prod.mk.inj hplace
  have hscope : s.scope = t.scope.renumber (· + 1) := hscope.trans (Scope.behind_nil _)
  have hgroups : s.groups = t.groups + 1 := hs.groups.trans (Nat.add_comm 1 t.groups)
  -- the closing parenthesis
  obtain ⟨s', hs', ht'⟩ := Reading.exists_next_of_toEnd ht' hrest
  obtain ⟨g, opened, hg, hclose⟩ := Reading.closeGroup_eq_ok.1 hs'
  rw [hopened] at hg
  obtain ⟨rfl, rfl⟩ := List.cons.inj hg
  -- the bounds
  have hrest' : s'.cursor.rest = '{' :: (Nat.toDigits 10 b.min ++ upperDigits b.max) := by
    rw [hclose, ← b.toList_display]
  obtain ⟨u, hu, ht'⟩ := Reading.exists_next_of_toEnd ht' hrest'
  have hu : s'.quantify limits' (Cursor.counted s'.cursor.offset) _ = .ok u := hu
  obtain ⟨a, items, q, d, hi, hq, -, rfl⟩ := Reading.quantify_eq_ok.1 hu
  obtain ⟨rfl, hd⟩ := eq_of_counted_display hq
  obtain rfl := Reading.eq_of_toEnd ht' hd
  subst hclose
  cases hi
  rw [Scope.renumber_body, ← hscope]
  show Pattern.mk _ s.groups = _
  rw [hgroups]
  rfl

end PatternGraph
