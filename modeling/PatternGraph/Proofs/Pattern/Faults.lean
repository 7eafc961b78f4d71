import PatternGraph.Proofs.Pattern.Constructs
import PatternGraph.Regex

/-!
# Where faults are reported

A fault is reported where it is noticed or, if it is one of a whole construct, where that begins.
What stands there is told by the grammar: which groups have been opened in front of a place, and
which of them are still open.

* `Opens`: the groups in front of a place in the text;
* `Reading.Spells`: the reader has come to such a place, **`Spells.of_reads`**: and does so again
  behind each construct;
* `Fault.PointsAt`: the place of a fault bears out its cause;
* **`pointsAt_of_next`**, **`pointsAt_of_read`**: the faults of one construct, of a whole text;
* **`compile_pointsAt`**: whole patterns.
-/

namespace PatternGraph

/-! ## Groups that are open -/

/-- In front of `t` the text opens `n` groups. Those that are not closed there have their
parentheses at the given offsets, the innermost first. -/
inductive Opens (text : List Char) : List Nat → Nat → List Char → Prop
  | outside {n : Nat} {t : List Char} : Derives BracketText .pattern 0 text n t → Opens text [] n t
  | inside {offset m n : Nat} {offsets : List Nat} {s t : List Char} :
    text.drop offset = '(' :: s → Opens text offsets m ('(' :: s) →
    Derives BracketText .pattern (m + 1) s n t → Opens text (offset :: offsets) n t

section

variable {text s t : List Char} {offsets : List Nat} {offset m n : Nat}

theorem Opens.append (h : Opens text offsets m s) (hb : Derives BracketText .branch m s n t) :
    Opens text offsets n t := by
  cases h with
  | outside hp => exact .outside (hp.append nofun hb)
  | inside hc ho hp => exact .inside hc ho (hp.append nofun hb)

theorem Opens.bar (h : Opens text offsets n ('|' :: t)) : Opens text offsets n t := by
  cases h with
  | outside hp => exact .outside hp.bar
  | inside hc ho hp => exact .inside hc ho hp.bar

theorem Opens.opened (h : Opens text offsets n ('(' :: t)) (ht : text.drop offset = '(' :: t) :
    Opens text (offset :: offsets) (n + 1) t :=
  .inside ht h (.single .empty)

theorem Opens.closed (h : Opens text (offset :: offsets) n (')' :: t)) :
    ∃ m s, Opens text offsets m s ∧ Derives BracketText .atom m s n t := by
  cases h with
  | inside hc ho hp => exact ⟨_, _, ho, .group hp⟩

end

/-! ## Places that the reader comes to -/

/-- The cursor is at a place in the text. -/
def Cursor.Of (text : List Char) (c : Cursor) : Prop :=
  ∃ before, text = before ++ c.rest ∧ c.offset = before.length

namespace Cursor.Of

variable {text : List Char} {c d : Cursor}

theorem drop (h : c.Of text) : text.drop c.offset = c.rest := by
  obtain ⟨before, rfl, ho⟩ := h
  rw [ho, List.drop_left]

theorem length (h : c.Of text) : c.length = text.length := by
  obtain ⟨before, rfl, ho⟩ := h
  rw [Cursor.length, ho, List.length_append]

theorem of_before (h : c.Of text) (hd : c.Before d) : d.Of text := by
  obtain ⟨before, rfl, ho⟩ := h
  obtain ⟨read, -, hc, hd⟩ := hd
  exact ⟨before ++ read, by rw [hc, List.append_assoc], by rw [hd, ho, List.length_append]⟩

theorem tail (h : c.Of text) {x : Char} {rest : List Char} (hc : c.rest = x :: rest) :
    Cursor.Of text ⟨rest, c.offset + 1⟩ :=
  h.of_before (before_of_rest hc)

end Cursor.Of

/-- What the reader has read of the text, told by the grammar. If the latest item is an atom that
may still be quantified, the text has one there. -/
structure Reading.Spells (text : List Char) (r : Reading) : Prop where
  cursor : r.cursor.Of text
  opens : Opens text (r.opened.map OpenGroup.offset) r.groups r.cursor.rest
  atom : r.Quantifiable → ∃ m s, Opens text (r.opened.map OpenGroup.offset) m s ∧
    Derives BracketText .atom m s r.groups r.cursor.rest

namespace Reading

variable {text : List Char} {r s : Reading}

theorem spells_ofList (text : List Char) : (ofList text).Spells text where
  cursor := ⟨[], rfl, rfl⟩
  opens := .outside (.single .empty)
  atom := fun ⟨a, items, hi⟩ => by cases hi

/-- **Behind a construct the reader has come to a place as well.** -/
theorem Spells.of_reads (h : r.Spells text) (hr : r.Reads s) (hs : s.cursor.Of text) :
    s.Spells text := by
  have hopens := h.opens
  -- where the latest item is no atom without a quantifier
  have hitem : ∀ {s : Reading}, (∀ a items, s.scope.items ≠ .atom a none :: items) →
      s.cursor.Of text → Opens text (s.opened.map OpenGroup.offset) s.groups s.cursor.rest →
        s.Spells text :=
    fun hi hs ho => ⟨hs, ho, fun ⟨a, items, h⟩ => absurd h (hi a items)⟩
  cases hr with
  | atom c nodes a ha =>
    exact ⟨hs, hopens.append (.item ha (.inl rfl) .empty), fun _ => ⟨_, _, hopens, ha⟩⟩
  | anchor c nodes a ha => exact hitem nofun hs (hopens.append ha)
  | quantified c nodes a items q hi hq =>
    obtain ⟨m, t, ho, ha⟩ := h.atom ⟨a, items, hi⟩
    exact hitem nofun hs (ho.append (.item ha (.inr hq) .empty))
  | opens c nodes hc =>
    rw [hc] at hopens
    exact hitem nofun hs (hopens.opened (h.cursor.drop.trans hc))
  | closes c g opened hc ho =>
    rw [hc, ho] at hopens
    obtain ⟨m, t, ho', ha⟩ := hopens.closed
    exact ⟨hs, ho'.append (.item ha (.inl rfl) .empty), fun _ => ⟨m, t, ho', ha⟩⟩
  | bar c hc =>
    rw [hc] at hopens
    exact hitem nofun hs hopens.bar

end Reading

/-! ## What a fault points at -/

/-- A number should stand in front of `offset`, behind a brace, a comma or a backslash. There are no
digits, or there are too many of them. -/
def NumberMissing (text : List Char) (offset : Nat) : Prop :=
  ∃ before x digits after, text = before ++ x :: (digits ++ after) ∧
    offset = before.length + 1 + digits.length ∧ (∀ d ∈ digits, d.isDigit) ∧
    (∀ y ∈ after.head?, y.isDigit = false) ∧
    (digits = [] ∧ (x = '{' ∨ x = ',') ∨
      UInt32.size ≤ Nat.ofDigitChars 10 digits 0 ∧ x ∈ ['{', ',', '\\'])

/-- What the text has at the place of a fault, and in front of it. -/
def Fault.PointsAt (text : List Char) (e : Fault) : Prop :=
  match e.cause with
  | .unexpectedEnd => e.offset = text.length
  | .numberExpected => NumberMissing text e.offset
  | .unopenedGroup => ∃ n t, text.drop e.offset = ')' :: t ∧ Opens text [] n (')' :: t)
  | .unclosedGroup => ∃ offsets n, Opens text (e.offset :: offsets) n []
  | .unclosedClass => ∃ offsets n t, text.drop e.offset = '[' :: t ∧
    Opens text offsets n ('[' :: t) ∧ ∀ u, ¬ BracketText t u
  | .missingOperand | .stackedQuantifier => ∃ offsets n x t, text.drop e.offset = x :: t ∧
    Opens text offsets n (x :: t) ∧ x ∈ ['?', '*', '+', '{']
  | .unclosedBounds => ∃ x t, text.drop e.offset = x :: t ∧ x.isDigit = false ∧ x ≠ '}'
  | .boundsInverted min max => ∃ s t u, text.drop e.offset = '{' :: s ∧ Numeral s min (',' :: t) ∧
    Numeral t max ('}' :: u) ∧ max < min
  | .rangeInverted first last => ∃ escaped escaped' t u,
    ClassChar (text.drop e.offset) first escaped ('-' :: t) ∧ ClassChar t last escaped' u ∧
      last < first
  | .strayHyphen => ∃ t, text.drop e.offset = '-' :: t
  | .undefinedBackref k => ∃ offsets n s t, text.drop e.offset = '\\' :: s ∧
    Opens text offsets n ('\\' :: s) ∧ Numeral s k t ∧ n < k
  | .nestingLimit limit => ∃ offsets n t, text.drop e.offset = '(' :: t ∧
    Opens text offsets n ('(' :: t) ∧ limit ≤ offsets.length
  | .nodeLimit _ => e.offset ≤ text.length

section

variable {text rest : List Char} {c d : Cursor} {e : Fault} {x : Char}

/-- **No fault points behind the end of the text.** -/
theorem Fault.PointsAt.offset_le (h : e.PointsAt text) : e.offset ≤ text.length := by
  obtain ⟨cause, offset⟩ := e
  -- most faults point at a character
  have hle : ∀ {x t}, text.drop offset = x :: t → offset ≤ text.length := by
    intro x t ht
    have hlength := congrArg List.length ht
    rw [List.length_drop, List.length_cons] at hlength
    omega
  cases cause with
  | unexpectedEnd => exact Nat.le_of_eq h
  | numberExpected =>
    obtain ⟨before, x, digits, after, rfl, ho, -⟩ := h
    dsimp only at ho ⊢
    rw [ho]
    simp only [List.length_append, List.length_cons]
    omega
  | unclosedGroup =>
    obtain ⟨offsets, n, ho⟩ := h
    cases ho with
    | inside ht => exact hle ht
  | unclosedClass | nestingLimit =>
    obtain ⟨offsets, n, t, ht, -⟩ := h
    exact hle ht
  | missingOperand | stackedQuantifier | undefinedBackref =>
    obtain ⟨offsets, n, x, t, ht, -⟩ := h
    exact hle ht
  | unopenedGroup | unclosedBounds =>
    obtain ⟨x, t, ht, -⟩ := h
    exact hle ht
  | boundsInverted =>
    obtain ⟨s, t, u, ht, -⟩ := h
    exact hle ht
  | rangeInverted =>
    obtain ⟨escaped, escaped', t, u, hfirst, -⟩ := h
    generalize ht : text.drop offset = s at hfirst
    cases hfirst with
    | escaped | bare => exact hle ht
  | strayHyphen =>
    obtain ⟨t, ht⟩ := h
    exact hle ht
  | nodeLimit => exact h

/-! ## Numbers and bounds -/

theorem pointsAt_of_number (hc : c.Of text) (hr : c.rest = x :: rest)
    (hx : x = '{' ∨ x = ',' ∨ x = '\\' ∧ rest.takeWhile Char.isDigit ≠ [])
    (h : Cursor.number ⟨rest, c.offset + 1⟩ = .error e) : e.PointsAt text := by
  obtain ⟨before, ht, ho⟩ := hc
  have hrun : DigitRun rest _ _ := digitRun_iff.2 ⟨rfl, rfl⟩
  have htext : text =
      before ++ x :: (rest.takeWhile Char.isDigit ++ rest.dropWhile Char.isDigit) := by
    rw [← hrun.text_eq, ← hr, ← ht]
  rw [Cursor.number_of_digitRun (c := ⟨rest, c.offset + 1⟩) hrun] at h
  split at h
  · next hnone =>
    cases h
    have hdigits := hrun.isDigit
    rw [hnone] at hdigits htext
    have hx : x = '{' ∨ x = ',' := hx.imp_right fun hx => hx.resolve_right fun hx => hx.2 hnone
    exact ⟨before, x, [], _, htext, by rw [ho]; rfl, hdigits, hrun.maximal, .inl ⟨rfl, hx⟩⟩
  · split at h
    · cases h
    · next hlarge =>
      cases h
      refine ⟨before, x, _, _, htext, by rw [ho], hrun.isDigit, hrun.maximal,
        .inr ⟨Nat.le_of_not_lt hlarge, ?_⟩⟩
      rcases hx with rfl | rfl | ⟨rfl, -⟩ <;> decide

theorem pointsAt_of_upperBound {min : Nat} (hc : c.Of text) (h : c.upperBound min = .error e) :
    e.PointsAt text := by
  unfold Cursor.upperBound at h
  split at h
  · cases h
  · next hr =>
    split at h
    · next hn =>
      cases h
      exact pointsAt_of_number hc hr (.inr (.inl rfl)) hn
    · cases h
  · cases h

theorem not_isDigit_of_number {n : Nat} (h : c.number = .ok (n, d)) :
    ∀ y ∈ d.rest.head?, y.isDigit = false := by
  obtain ⟨-, -, -, rfl⟩ := Cursor.number_eq_ok.1 h
  exact isDigit_dropWhile c.rest

theorem not_isDigit_of_upperBound {min : Nat} {max : Option Nat}
    (hc : ∀ y ∈ c.rest.head?, y.isDigit = false) (h : c.upperBound min = .ok (max, d)) :
    ∀ y ∈ d.rest.head?, y.isDigit = false := by
  rcases Cursor.upperBound_eq_ok.1 h with ⟨rest, -, -, rfl⟩ | ⟨rest, n, -, -, -, hn⟩ | ⟨-, -, rfl⟩
  · intro y hy
    cases hy
    rfl
  · exact not_isDigit_of_number hn
  · exact hc

theorem pointsAt_of_bounds (hc : c.Of text) (hr : c.rest = '{' :: rest)
    (h : Cursor.bounds c.offset ⟨rest, c.offset + 1⟩ = .error e) : e.PointsAt text := by
  unfold Cursor.bounds at h
  split at h
  · next hn =>
    cases h
    exact pointsAt_of_number hc hr (.inl rfl) hn
  next min d hmin =>
  have hd : d.Of text := (hc.tail hr).of_before (Cursor.before_of_number hmin)
  split at h
  · next hu =>
    cases h
    exact pointsAt_of_upperBound hd hu
  next max f hmax =>
  have hf : f.Of text := (Cursor.before_of_upperBound hmax).elim (· ▸ hd) hd.of_before
  split at h
  · next hend =>
    cases h
    have hlength := hf.length
    rwa [Cursor.length, hend] at hlength
  · next rest' hclose =>
    split at h
    · cases h
    · next high =>
      split at h
      · cases h
      · next hlt =>
        cases h
        have hmin : Numeral rest min d.rest := (numeral_iff _).2 ⟨d.offset, hmin⟩
        rcases Cursor.upperBound_eq_ok.1 hmax with ⟨-, -, hnone, -⟩ |
          ⟨rest', n, hcomma, -, hn, hmax⟩ | ⟨-, hmin, -⟩
        · cases hnone
        · cases hn
          rw [hcomma] at hmin
          have hmax : Numeral rest' high f.rest := (numeral_iff _).2 ⟨f.offset, hmax⟩
          rw [hclose] at hmax
          exact ⟨rest, rest', _, hc.drop.trans hr, hmin, hmax, Nat.lt_of_not_le hlt⟩
        · cases hmin
          exact absurd (Nat.le_refl _) hlt
  · next hend hne =>
    cases h
    obtain ⟨y, t, hy⟩ := List.exists_cons_of_ne_nil hend
    refine ⟨y, t, hf.drop.trans hy, ?_, fun hclose => hne t (hclose ▸ hy)⟩
    exact not_isDigit_of_upperBound (not_isDigit_of_number hmin) hmax y (hy ▸ rfl)

/-! ## Classes -/

theorem pointsAt_of_ranges {opening : Nat} {isFirst : Bool} {found : List CharRange}
    (hc : c.Of text) (h : c.ranges opening isFirst found = .error e) :
    e = ⟨.unclosedClass, opening⟩ ∨ e.PointsAt text := by
  fun_induction Cursor.ranges opening isFirst found c with
  | case1 => cases h; exact .inl rfl
  | case2 => cases h
  | case3 isFirst found c x escaped d hx hend hhyphen =>
    cases h
    obtain ⟨rfl, hescaped, -⟩ := hhyphen
    have hchar := classChar_of_eq_some hx
    obtain rfl : escaped = false := by simpa using hescaped
    refine .inr ?_
    generalize hr : c.rest = s at hchar
    cases hchar with
    | bare _ => exact ⟨d.rest, hc.drop.trans hr⟩
  | case4 _ _ c _ _ d hx _ _ rest hd ih =>
    exact ih ((hc.of_before (Cursor.before_of_classChar hx)).tail hd) h
  | case5 => cases h; exact .inl rfl
  | case6 _ _ c _ _ d hx _ _ rest _ hd _ _ _ hy _ ih =>
    exact ih (((hc.of_before (Cursor.before_of_classChar hx)).tail hd).of_before
      (Cursor.before_of_classChar hy)) h
  | case7 _ _ c x _ d hx _ _ rest _ hd y _ f hy hgt =>
    cases h
    have hfirst := classChar_of_eq_some hx
    rw [hd, ← hc.drop] at hfirst
    exact .inr ⟨_, _, rest, f.rest, hfirst, classChar_of_eq_some hy, Char.not_le.1 hgt⟩
  | case8 _ _ c _ _ d hx _ _ _ _ ih => exact ih (hc.of_before (Cursor.before_of_classChar hx)) h

/-! ## Constructs -/

variable {limits : Limits} {r s : Reading}

namespace Reading

theorem pointsAt_of_claim {count : Nat} (hc : c.Of text) (h : r.claim limits count c = .error e) :
    e.PointsAt text := by
  unfold claim at h
  split at h
  · cases h
  · cases h
    show c.offset ≤ text.length
    rw [← hc.length]
    exact Nat.le_add_right _ _

variable (hr : r.Spells text)

include hr

theorem pointsAt_of_openGroup (hx : r.cursor.rest = '(' :: rest)
    (h : r.openGroup limits ⟨rest, r.cursor.offset + 1⟩ = .error e) : e.PointsAt text := by
  unfold openGroup at h
  split at h
  · exact pointsAt_of_claim (hr.cursor.tail hx) h
  · next hlimit =>
    cases h
    refine ⟨_, _, rest, hr.cursor.drop.trans hx, hx ▸ hr.opens, ?_⟩
    rw [List.length_map]
    exact Nat.le_of_not_lt hlimit

theorem pointsAt_of_closeGroup (hx : r.cursor.rest = ')' :: rest)
    (h : r.closeGroup c = .error e) : e.PointsAt text := by
  unfold closeGroup at h
  split at h
  · next ho =>
    cases h
    have hopens := hr.opens
    rw [ho, hx] at hopens
    exact ⟨_, rest, hr.cursor.drop.trans hx, hopens⟩
  · cases h

theorem pointsAt_of_quantify {quantifier : Cursor → Except Fault (Quantifier × Cursor)}
    (hx : r.cursor.rest = x :: rest) (hsign : x ∈ ['?', '*', '+', '{'])
    (hok : ∀ {q d}, quantifier ⟨rest, r.cursor.offset + 1⟩ = .ok (q, d) → d.Of text)
    (herror : ∀ {e}, quantifier ⟨rest, r.cursor.offset + 1⟩ = .error e → e.PointsAt text)
    (h : r.quantify limits quantifier ⟨rest, r.cursor.offset + 1⟩ = .error e) :
    e.PointsAt text := by
  unfold quantify at h
  split at h
  · split at h
    · next hq =>
      cases h
      exact herror hq
    · next hq => exact pointsAt_of_claim (hok hq) h
  · cases h
    exact ⟨_, _, x, rest, hr.cursor.drop.trans hx, hx ▸ hr.opens, hsign⟩
  · cases h
    exact ⟨_, _, x, rest, hr.cursor.drop.trans hx, hx ▸ hr.opens, hsign⟩

theorem pointsAt_of_addBracket (hx : r.cursor.rest = '[' :: rest)
    (h : r.addBracket limits ⟨rest, r.cursor.offset + 1⟩ = .error e) : e.PointsAt text := by
  have hc := hr.cursor.tail hx
  unfold addBracket at h
  split at h
  · next hb =>
    cases h
    -- no class can be read here
    have hnone : ∀ u, ¬ BracketText rest u := by
      intro u hu
      obtain ⟨k, d, hd, -⟩ := (bracketText_iff r.cursor.offset (r.cursor.offset + 1)).1 hu
      rw [hb] at hd
      cases hd
    unfold Cursor.bracket at hb
    split at hb
    · next hranges =>
      cases hb
      have hcaret : (Cursor.caret ⟨rest, r.cursor.offset + 1⟩).2.Of text := by
        unfold Cursor.caret
        split
        · next hcaret => exact hc.tail hcaret
        · exact hc
      rcases pointsAt_of_ranges hcaret hranges with rfl | hpoints
      · exact ⟨_, _, rest, hr.cursor.drop.trans hx, hx ▸ hr.opens, hnone⟩
      · exact hpoints
    · cases hb
  · next hb => exact pointsAt_of_claim (hc.of_before (Cursor.before_of_bracket hb)) h

theorem pointsAt_of_addEscape (hx : r.cursor.rest = '\\' :: rest)
    (h : r.addEscape limits ⟨rest, r.cursor.offset + 1⟩ = .error e) : e.PointsAt text := by
  have hc := hr.cursor.tail hx
  unfold addEscape at h
  split at h
  · next hend =>
    cases h
    have hlength := hc.length
    rwa [Cursor.length, hend] at hlength
  next y rest' hrest =>
  obtain rfl : rest = y :: rest' := hrest
  split at h
  · next hdigit =>
    unfold addBackref at h
    split at h
    · next hn =>
      cases h
      exact pointsAt_of_number hr.cursor hx (.inr (.inr ⟨rfl, by simp [hdigit]⟩)) hn
    next k d hd =>
    split at h
    · exact pointsAt_of_claim (hc.of_before (Cursor.before_of_number hd)) h
    · next hk =>
      cases h
      exact ⟨_, _, _, d.rest, hr.cursor.drop.trans hx, hx ▸ hr.opens,
        (numeral_iff _).2 ⟨d.offset, hd⟩, Nat.lt_of_not_le hk⟩
  · exact pointsAt_of_claim (hc.tail rfl) h

/-- **A fault of one construct points at its place.** -/
theorem pointsAt_of_next (hx : r.cursor.rest = x :: rest)
    (h : r.next limits x ⟨rest, r.cursor.offset + 1⟩ = .error e) :
    e.PointsAt text := by
  have hc := hr.cursor.tail hx
  -- a quantifier that is one character
  have hsign : ∀ {q : Quantifier}, x ∈ ['?', '*', '+', '{'] →
      r.quantify limits (fun c => .ok (q, c)) ⟨rest, r.cursor.offset + 1⟩ = .error e →
        e.PointsAt text :=
    fun hsign h => pointsAt_of_quantify hr hx hsign (fun hd => by cases hd; exact hc)
      (fun he => by cases he) h
  unfold next at h
  split at h
  · exact pointsAt_of_openGroup hr hx h
  · exact pointsAt_of_closeGroup hr hx h
  · cases h
  · exact hsign (by decide) h
  · exact hsign (by decide) h
  · exact hsign (by decide) h
  · refine pointsAt_of_quantify hr hx (by decide) (fun hd => ?_) (fun he => ?_) h
    · exact hc.of_before (Cursor.before_of_counted hd)
    · unfold Cursor.counted at he
      split at he
      · next hb =>
        cases he
        exact pointsAt_of_bounds hr.cursor hx hb
      · cases he
  · exact pointsAt_of_claim hc h
  · exact pointsAt_of_claim hc h
  · exact pointsAt_of_claim hc h
  · exact pointsAt_of_addBracket hr hx h
  · exact pointsAt_of_addEscape hr hx h
  · exact pointsAt_of_claim hc h

theorem Spells.of_next (hx : r.cursor.rest = x :: rest)
    (hs : r.next limits x ⟨rest, r.cursor.offset + 1⟩ = .ok s) : s.Spells text :=
  hr.of_reads (reads_of_next hx hs)
    ((reaches_of_next hs).elim (· ▸ hr.cursor.tail hx) (hr.cursor.tail hx).of_before)

variable (limits) in
theorem pointsAt_of_toEnd :
    (∀ e, r.toEnd limits = .error e → e.PointsAt text) ∧
      ∀ s, r.toEnd limits = .ok s → s.Spells text ∧ s.cursor.rest = [] := by
  fun_induction Reading.toEnd limits r with
  | case1 r hend =>
    refine ⟨fun e he => ?_, fun s hs => ?_⟩
    · cases he
    · cases hs
      exact ⟨hr, hend⟩
  | case2 r x rest hx e hn =>
    refine ⟨fun e' he => ?_, fun s hs => ?_⟩
    · cases he
      exact pointsAt_of_next hr hx hn
    · cases hs
  | case3 r x rest hx s hn ih => exact ih (hr.of_next hx hn)

end Reading

/-! ## Whole patterns -/

theorem pointsAt_of_read (h : Pattern.read limits text = .error e) : e.PointsAt text := by
  unfold Pattern.read at h
  split at h
  · cases h
    exact Nat.zero_le _
  obtain ⟨herror, hok⟩ := Reading.pointsAt_of_toEnd limits (Reading.spells_ofList text)
  split at h
  · next hr =>
    cases h
    exact herror _ hr
  next r hr =>
  obtain ⟨hspells, hend⟩ := hok r hr
  unfold Reading.finish at h
  split at h
  · cases h
  · next g opened ho =>
    cases h
    have hopens := hspells.opens
    rw [ho, hend] at hopens
    exact ⟨_, _, hopens⟩

/-- **Every error points at its offender**, and within the pattern that it bears. -/
theorem compile_pointsAt {limits : Limits} {pattern : String} {e : PatternError}
    (h : compile limits pattern = .error e) : e.pattern = pattern ∧ e.offset ≤ pattern.length ∧
      e.toFault.PointsAt pattern.toList := by
  unfold compile at h
  split at h
  · next hread =>
    cases h
    have hpoints := pointsAt_of_read hread
    exact ⟨rfl, String.length_toList ▸ hpoints.offset_le, hpoints⟩
  · cases h

/-- The second group is not closed here, and those that it holds are. -/
theorem compile_pointsAt_unclosed :
    compile {} "(a)((b)|(c)" = .error ⟨⟨.unclosedGroup, 3⟩, "(a)((b)|(c)"⟩ ∧
      ∃ offsets n, Opens "(a)((b)|(c)".toList (3 :: offsets) n [] := by
  have h : compile {} "(a)((b)|(c)" = .error ⟨⟨.unclosedGroup, 3⟩, "(a)((b)|(c)"⟩ := by cbv
  obtain ⟨-, -, hpoints⟩ := compile_pointsAt h
  exact ⟨h, hpoints⟩

end

end PatternGraph
