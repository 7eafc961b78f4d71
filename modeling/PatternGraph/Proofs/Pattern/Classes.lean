import PatternGraph.Proofs.Pattern.Within

/-!
# What a class in brackets lists

What a hyphen, a closing bracket or a caret means between brackets depends on where it stands. Here
it is said without the reader which ranges a text lists, item by item.

* `ClassChar`, `Begins`: one character of a class, and whether an item may begin with it;
* `ListsItem`, `ListsRanges`, `ListsClass`: an item with its range, items up to the closing bracket
  with the ranges in the order of the text, a whole class;
* **`listsClass_iff`**: a text is read as the class that it lists, and as no other;
* `CharRange.written`, `CharClass.written`: a class written with a backslash in front of each
  character, **`listsClass_written`**: which lists the class again;
* **`bracket_means`**: what a class in brackets means.
-/

namespace PatternGraph

/-! ## Items and their ranges -/

/-- A character of a class, and whether it has a backslash. -/
inductive ClassChar : List Char → Char → Bool → List Char → Prop
  | escaped {x : Char} {t : List Char} : ClassChar ('\\' :: x :: t) x true t
  | bare {x : Char} {t : List Char} : x ≠ '\\' → ClassChar (x :: t) x false t

/-- A character can begin an item. Without a backslash, a closing bracket can only begin the first
one, a hyphen the first one or, right before the closing bracket, the last. -/
def Begins (isFirst : Bool) (x : Char) (escaped : Bool) (t : List Char) : Prop :=
  (x = ']' → escaped ∨ isFirst) ∧ (x = '-' → escaped ∨ isFirst ∨ t.head? = some ']')

instance (isFirst : Bool) (x : Char) (escaped : Bool) (t : List Char) :
    Decidable (Begins isFirst x escaped t) := by unfold Begins; infer_instance

/-- An item of a class and the range that it lists: that of one character, or the one between two
characters with a hyphen. Behind the beginning of an item a hyphen makes a range, unless the closing
bracket follows. -/
inductive ListsItem (isFirst : Bool) : List Char → CharRange → List Char → Prop
  | single {s t : List Char} {x : Char} {escaped : Bool} : ClassChar s x escaped t →
    Begins isFirst x escaped t → (∀ u, t = '-' :: u → u.head? = some ']') →
    ListsItem isFirst s (.single x) t
  | range {s t u : List Char} {x y : Char} {escaped escaped' : Bool} :
    ClassChar s x escaped ('-' :: t) → Begins isFirst x escaped ('-' :: t) → t.head? ≠ some ']' →
    ClassChar t y escaped' u → x ≤ y → ListsItem isFirst s ⟨x, y⟩ u

/-- Items up to the closing bracket, with their ranges; the flag tells that the first one is still
to come. -/
inductive ListsRanges : Bool → List Char → List CharRange → List Char → Prop
  | close {t : List Char} : ListsRanges false (']' :: t) [] t
  | item {isFirst : Bool} {s t u : List Char} {r : CharRange} {rs : List CharRange} :
    ListsItem isFirst s r t → ListsRanges false t rs u → ListsRanges isFirst s (r :: rs) u

/-- What stands behind an opening bracket, up to the closing one, and the class that it means. A
caret in first place negates. -/
inductive ListsClass : List Char → CharClass → List Char → Prop
  | listed {s t : List Char} {rs : List CharRange} : s.head? ≠ some '^' → ListsRanges true s rs t →
    ListsClass s ⟨false, rs⟩ t
  | negated {s t : List Char} {rs : List CharRange} : ListsRanges true s rs t →
    ListsClass ('^' :: s) ⟨true, rs⟩ t

section

variable {s t : List Char} {isFirst : Bool} {r : CharRange} {rs : List CharRange}

theorem ListsItem.first_le_last (h : ListsItem isFirst s r t) : r.first ≤ r.last := by
  cases h with
  | single => exact Char.le_refl _
  | range _ _ _ _ hle => exact hle

theorem ListsRanges.first_le_last (h : ListsRanges isFirst s rs t) :
    ∀ r ∈ rs, r.first ≤ r.last := by
  induction h with
  | close => exact fun r hr => absurd hr List.not_mem_nil
  | item hi _ ih =>
    intro r hr
    rcases List.mem_cons.1 hr with rfl | hr
    · exact hi.first_le_last
    · exact ih r hr

theorem ListsRanges.ne_nil (h : ListsRanges true s rs t) : rs ≠ [] := by
  cases h with
  | item => exact List.cons_ne_nil _ _

theorem ClassChar.exists_append {x : Char} {escaped : Bool} (h : ClassChar s x escaped t) :
    ∃ taken, s = taken ++ t := by
  cases h with
  | escaped => exact ⟨['\\', x], rfl⟩
  | bare => exact ⟨[x], rfl⟩

theorem ListsItem.exists_append (h : ListsItem isFirst s r t) : ∃ taken, s = taken ++ t := by
  cases h with
  | single hx => exact hx.exists_append
  | range hx _ _ hy =>
    obtain ⟨taken, rfl⟩ := hx.exists_append
    obtain ⟨taken', rfl⟩ := hy.exists_append
    exact ⟨taken ++ '-' :: taken', by simp⟩

theorem ListsRanges.exists_closed (h : ListsRanges isFirst s rs t) :
    ∃ listed, s = listed ++ ']' :: t := by
  induction h with
  | close => exact ⟨[], rfl⟩
  | item hi _ ih =>
    obtain ⟨taken, rfl⟩ := hi.exists_append
    obtain ⟨listed, rfl⟩ := ih
    exact ⟨taken ++ listed, (List.append_assoc _ _ _).symm⟩

theorem ListsClass.exists_closed {k : CharClass} (h : ListsClass s k t) :
    ∃ listed, s = listed ++ ']' :: t := by
  cases h with
  | listed _ hl => exact hl.exists_closed
  | negated hl =>
    obtain ⟨listed, rfl⟩ := hl.exists_closed
    exact ⟨'^' :: listed, rfl⟩

end

/-! ## Classes are read as they are listed -/

section

variable {s t : List Char} {c d : Cursor} {x : Char} {escaped isFirst : Bool} {rs : List CharRange}

theorem classChar_of_eq_some (h : c.classChar = some (x, escaped, d)) :
    ClassChar c.rest x escaped d.rest := by
  obtain ⟨rest, offset⟩ := c
  unfold Cursor.classChar at h
  split at h
  · cases h
  · cases h
  · next hc =>
    cases h
    obtain rfl : rest = _ := hc
    exact .escaped
  · next y rest' h1 h2 hc =>
    cases h
    obtain rfl : rest = _ := hc
    refine .bare fun hx => ?_
    subst hx
    cases rest' with
    | nil => exact h1 rfl rfl
    | cons y rest' => exact h2 y rest' rfl rfl

theorem ClassChar.exists_eq_some (h : ClassChar s x escaped t) (offset : Nat) :
    ∃ offset', Cursor.classChar ⟨s, offset⟩ = some (x, escaped, ⟨t, offset'⟩) := by
  cases h with
  | escaped => exact ⟨offset + 2, rfl⟩
  | bare hx =>
    refine ⟨offset + 1, ?_⟩
    unfold Cursor.classChar
    split
    · next hc => cases hc
    · next hc => exact absurd (List.cons.inj hc).1 hx
    · next hc => exact absurd (List.cons.inj hc).1 hx
    · next hc => cases hc; rfl

theorem begins_iff : Begins isFirst x escaped t ↔ ¬ (x = ']' ∧ !escaped ∧ !isFirst) ∧
    ¬ (x = '-' ∧ !escaped ∧ !isFirst ∧ t.head? ≠ some ']') := by
  rw [Begins]
  cases escaped <;> cases isFirst <;> simp

theorem exists_listsRanges {opening : Nat} {found out : List CharRange}
    (h : c.ranges opening isFirst found = .ok (out, d)) :
    ∃ rs, out = found.reverse ++ rs ∧ ListsRanges isFirst c.rest rs d.rest := by
  fun_induction Cursor.ranges opening isFirst found c with
  | case1 | case3 | case5 | case7 => cases h
  | case2 isFirst found c x escaped e hc hend =>
    cases h
    have hx := classChar_of_eq_some hc
    obtain ⟨rfl, he, hf⟩ := hend
    obtain rfl : escaped = false := by simpa using he
    obtain rfl : isFirst = false := by simpa using hf
    generalize c.rest = s at hx ⊢
    cases hx with
    | bare _ => exact ⟨[], (List.append_nil _).symm, .close⟩
  | case4 isFirst found c x escaped e hc hend hhyphen rest hd ih =>
    -- a hyphen right before the closing bracket is the last item
    have hx := classChar_of_eq_some hc
    have hb : Begins isFirst x escaped e.rest := begins_iff.2 ⟨hend, hhyphen⟩
    obtain ⟨rs, rfl, hrest⟩ := ih h
    rw [hd] at hx hb
    refine ⟨.single x :: .single '-' :: rs, by simp, .item (.single hx hb fun u hu => ?_)
      (.item (.single (.bare (by decide)) ⟨by simp, fun _ => .inr (.inr rfl)⟩ fun u hu => ?_) hrest)⟩
    · rw [← (List.cons.inj hu).2]
      rfl
    · cases hu
  | case6 isFirst found c x escaped e hc hend hhyphen rest hne hd y escaped' e' hy hle ih =>
    have hx := classChar_of_eq_some hc
    have hb : Begins isFirst x escaped e.rest := begins_iff.2 ⟨hend, hhyphen⟩
    obtain ⟨rs, rfl, hrest⟩ := ih h
    rw [hd] at hx hb
    refine ⟨⟨x, y⟩ :: rs, by simp,
      .item (.range hx hb (fun hr => ?_) (classChar_of_eq_some hy) hle) hrest⟩
    obtain ⟨rest', rfl⟩ := List.head?_eq_some_iff.1 hr
    exact hne rest' rfl
  | case8 isFirst found c x escaped e hc hend hhyphen h1 h2 ih =>
    have hb : Begins isFirst x escaped e.rest := begins_iff.2 ⟨hend, hhyphen⟩
    obtain ⟨rs, rfl, hrest⟩ := ih h
    exact ⟨.single x :: rs, by simp,
      .item (.single (classChar_of_eq_some hc) hb fun u hu => absurd hu (h2 u)) hrest⟩

theorem ListsRanges.exists_ranges (h : ListsRanges isFirst s rs t) (opening : Nat) :
    ∀ (found : List CharRange) (offset : Nat), ∃ offset',
      Cursor.ranges opening isFirst found ⟨s, offset⟩ = .ok (found.reverse ++ rs, ⟨t, offset'⟩) := by
  induction h with
  | @close t =>
    intro found offset
    have hbracket : Cursor.classChar ⟨']' :: t, offset⟩ = some (']', false, ⟨t, offset + 1⟩) := rfl
    exact ⟨_, by rw [ranges_close hbracket (by simp), List.append_nil]⟩
  | @item isFirst s t u r rs hi _ ih =>
    intro found offset
    have hcons : ∀ r, (r :: found).reverse ++ rs = found.reverse ++ r :: rs := by simp
    cases hi with
    | @single _ x escaped hc hb hsingle =>
      obtain ⟨o, ho⟩ := hc.exists_eq_some offset
      obtain ⟨hend, hhyphen⟩ := begins_iff.1 hb
      rw [← hcons]
      by_cases hd : t.head? = some '-'
      · -- the hyphen and the closing bracket behind it are looked at together
        obtain ⟨u, rfl⟩ := List.head?_eq_some_iff.1 hd
        obtain ⟨u, rfl⟩ := List.head?_eq_some_iff.1 (hsingle u rfl)
        have hnext : Cursor.classChar ⟨'-' :: ']' :: u, o⟩ =
            some ('-', false, ⟨']' :: u, o + 1⟩) := rfl
        obtain ⟨o', hr⟩ := ih (.single x :: found) o
        rw [ranges_single hnext (by simp) (by simp) (by simp)] at hr
        rw [ranges_hyphen ho hend hhyphen rfl]
        exact ⟨o', hr⟩
      · rw [ranges_single ho hend hhyphen hd]
        exact ih _ o
    | @range t _ x y escaped escaped' hc hb hne hy hle =>
      obtain ⟨o, ho⟩ := hc.exists_eq_some offset
      obtain ⟨o', ho'⟩ := hy.exists_eq_some (o + 1)
      obtain ⟨hend, hhyphen⟩ := begins_iff.1 hb
      rw [ranges_range ho hend hhyphen rfl hne ho', if_pos hle, ← hcons]
      exact ih _ o'

theorem caret_of_head?_ne {offset : Nat} (h : s.head? ≠ some '^') :
    Cursor.caret ⟨s, offset⟩ = (false, ⟨s, offset⟩) := by
  unfold Cursor.caret
  split
  · next hc =>
    obtain rfl : s = _ := hc
    exact absurd rfl h
  · rfl

theorem bracket_of_caret {opening : Nat} {negated : Bool} (h : c.caret = (negated, d)) :
    c.bracket opening = (d.ranges opening true []).map fun found => (⟨negated, found.1⟩, found.2) := by
  rw [Cursor.bracket, h]
  dsimp only
  cases d.ranges opening true [] <;> rfl

/-- **A text is read as the class that it lists.** -/
theorem listsClass_iff (opening offset : Nat) {k : CharClass} : ListsClass s k t ↔
    ∃ offset', Cursor.bracket opening ⟨s, offset⟩ = .ok (k, ⟨t, offset'⟩) := by
  have hnegated : ∀ s, Cursor.caret ⟨'^' :: s, offset⟩ = (true, ⟨s, offset + 1⟩) := fun _ => rfl
  constructor
  · intro h
    cases h with
    | listed hne hl =>
      obtain ⟨o, ho⟩ := hl.exists_ranges opening [] offset
      exact ⟨o, by rw [bracket_of_caret (caret_of_head?_ne hne), ho]; rfl⟩
    | negated hl =>
      obtain ⟨o, ho⟩ := hl.exists_ranges opening [] (offset + 1)
      exact ⟨o, by rw [bracket_of_caret (hnegated _), ho]; rfl⟩
  · rintro ⟨offset', h⟩
    have hlists : ∀ {negated c}, Cursor.caret ⟨s, offset⟩ = (negated, c) →
        ∃ rs, k = ⟨negated, rs⟩ ∧ ListsRanges true c.rest rs t := by
      intro negated c hc
      rw [bracket_of_caret hc] at h
      cases hr : c.ranges opening true [] with
      | error e => rw [hr] at h; cases h
      | ok found =>
        obtain ⟨out, d⟩ := found
        rw [hr] at h
        cases h
        obtain ⟨rs, rfl, hl⟩ := exists_listsRanges hr
        exact ⟨_, rfl, hl⟩
    by_cases hcaret : s.head? = some '^'
    · obtain ⟨s, rfl⟩ := List.head?_eq_some_iff.1 hcaret
      obtain ⟨rs, rfl, hl⟩ := hlists (hnegated s)
      exact .negated hl
    · obtain ⟨rs, rfl, hl⟩ := hlists (caret_of_head?_ne hcaret)
      exact .listed hcaret hl

end

/-! ## Classes that have been written out -/

/-- A range with a backslash in front of each of its characters. -/
def CharRange.written (r : CharRange) : List Char :=
  if r.first = r.last then ['\\', r.first] else ['\\', r.first, '-', '\\', r.last]

/-- A class with a backslash in front of each character that it lists, up to its closing bracket. -/
def CharClass.written (k : CharClass) : List Char :=
  (if k.negated then ['^'] else []) ++ (k.ranges.flatMap CharRange.written ++ [']'])

theorem listsItem_written {r : CharRange} (hr : r.first ≤ r.last) (isFirst : Bool) {t : List Char}
    (ht : t.head? ≠ some '-') : ListsItem isFirst (r.written ++ t) r t := by
  obtain ⟨x, y⟩ := r
  have hbegins : ∀ t, Begins isFirst x true t := fun t => ⟨fun _ => .inl rfl, fun _ => .inl rfl⟩
  by_cases hxy : x = y
  · subst hxy
    rw [CharRange.written, if_pos rfl]
    refine .single .escaped (hbegins t) fun u hu => ?_
    rw [hu] at ht
    exact absurd rfl ht
  · rw [CharRange.written, if_neg hxy]
    exact .range .escaped (hbegins _) (by simp) .escaped hr

theorem listsRanges_written {rs : List CharRange} (hrs : ∀ r ∈ rs, r.first ≤ r.last)
    {isFirst : Bool} (hne : isFirst → rs ≠ []) (t : List Char) :
    ListsRanges isFirst (rs.flatMap CharRange.written ++ ']' :: t) rs t := by
  induction rs generalizing isFirst with
  | nil =>
    obtain rfl : isFirst = false := by simpa using hne
    exact .close
  | cons r rs ih =>
    rw [List.flatMap_cons, List.append_assoc]
    refine .item (listsItem_written (hrs r List.mem_cons_self) isFirst ?_)
      (ih (fun r hr => hrs r (List.mem_cons_of_mem _ hr)) nofun)
    -- what follows begins with a backslash or is the closing bracket
    cases rs with
    | nil => simp
    | cons r rs =>
      rw [List.flatMap_cons, CharRange.written]
      split <;> simp

/-- **A class that has been written out lists itself.** -/
theorem listsClass_written {k : CharClass} (hne : k.ranges ≠ [])
    (hk : ∀ r ∈ k.ranges, r.first ≤ r.last) (t : List Char) : ListsClass (k.written ++ t) k t := by
  obtain ⟨negated, rs⟩ := k
  have hl : ListsRanges true (rs.flatMap CharRange.written ++ ']' :: t) rs t :=
    listsRanges_written hk (fun _ => hne) t
  cases negated with
  | true =>
    rw [CharClass.written, if_pos rfl, List.append_assoc, List.append_assoc]
    exact .negated hl
  | false =>
    rw [CharClass.written, if_neg Bool.false_ne_true, List.nil_append, List.append_assoc]
    refine .listed ?_ hl
    obtain ⟨r, rs, rfl⟩ := List.exists_cons_of_ne_nil hne
    rw [List.flatMap_cons, CharRange.written]
    split <;> simp

/-! ## What a class means -/

/-- **A class in brackets means what it lists.** A class that is read is the one that its text
lists, which lists no other: it is negated if and only if the text begins with a caret, and has the
range of each item in the order of the text. It has one range at least, the ends of its ranges are in
order, and the reader stops right behind the closing bracket. Every text that lists a class is read.
And each class with ranges in order comes back when it is written with a backslash in front of every
character. -/
theorem bracket_means :
    (∀ (opening : Nat) (c d : Cursor) (k : CharClass), c.bracket opening = .ok (k, d) →
      ListsClass c.rest k d.rest ∧ (∀ k' t, ListsClass c.rest k' t → k' = k ∧ t = d.rest) ∧
      (k.negated ↔ c.rest.head? = some '^') ∧ k.ranges ≠ [] ∧ (∀ r ∈ k.ranges, r.first ≤ r.last) ∧
      ∃ listed, c.rest = listed ++ ']' :: d.rest ∧ d.offset = c.offset + listed.length + 1) ∧
    (∀ s k t, ListsClass s k t → ∀ opening offset, ∃ offset',
      Cursor.bracket opening ⟨s, offset⟩ = .ok (k, ⟨t, offset'⟩)) ∧
    ∀ k : CharClass, k.ranges ≠ [] → (∀ r ∈ k.ranges, r.first ≤ r.last) →
      ∀ (opening offset : Nat) (t : List Char),
        Cursor.bracket opening ⟨k.written ++ t, offset⟩ =
          .ok (k, ⟨t, offset + k.written.length⟩) := by
  -- a class ends where its text does
  have hoffset : ∀ {opening : Nat} {c d : Cursor} {k : CharClass} {u : List Char},
      c.bracket opening = .ok (k, d) → c.rest = u ++ d.rest → d.offset = c.offset + u.length := by
    intro opening c d k u h hc
    obtain ⟨read, -, hread, ho⟩ := Cursor.before_of_bracket h
    rw [ho, List.append_cancel_right (hread.symm.trans hc)]
  refine ⟨fun opening c d k h => ?_, fun s k t h opening offset => (listsClass_iff _ _).1 h,
    fun k hne hk opening offset t => ?_⟩
  · have hl : ListsClass c.rest k d.rest := (listsClass_iff opening c.offset).2 ⟨d.offset, h⟩
    have hranges : k.ranges ≠ [] ∧ (∀ r ∈ k.ranges, r.first ≤ r.last) ∧
        (k.negated ↔ c.rest.head? = some '^') := by
      generalize c.rest = s at hl
      cases hl with
      | listed hs hl => exact ⟨hl.ne_nil, hl.first_le_last, iff_of_false Bool.false_ne_true hs⟩
      | negated hl => exact ⟨hl.ne_nil, hl.first_le_last, iff_of_true rfl rfl⟩
    obtain ⟨hne, hle, hnegated⟩ := hranges
    refine ⟨hl, fun k' t hl' => ?_, hnegated, hne, hle, ?_⟩
    · obtain ⟨o, ho⟩ := (listsClass_iff opening c.offset).1 hl'
      cases ho.symm.trans h
      exact ⟨rfl, rfl⟩
    · obtain ⟨listed, hc⟩ := hl.exists_closed
      refine ⟨listed, hc, ?_⟩
      rw [hoffset (u := listed ++ [']']) h (by simp [hc]), List.length_append, Nat.add_assoc]
      rfl
  · obtain ⟨o, ho⟩ := (listsClass_iff opening offset).1 (listsClass_written hne hk t)
    have hend : o = offset + k.written.length := hoffset ho rfl
    rw [ho, hend]

/-- A range from a hyphen to a closing bracket and a caret, all with a backslash; a bracket and a
hyphen that begin and end a class without one. -/
theorem bracket_means_punctuation :
    Cursor.bracket 0 ⟨"\\--\\]\\^]a".toList, 1⟩ = .ok (⟨false, [⟨'-', ']'⟩, ⟨'^', '^'⟩]⟩, ⟨['a'], 9⟩) ∧
      ∃ d, Cursor.bracket 0 ⟨"^]+--a-]".toList, 1⟩ =
        .ok (⟨true, [⟨']', ']'⟩, ⟨'+', '-'⟩, ⟨'a', 'a'⟩, ⟨'-', '-'⟩]⟩, d) ∧ d.rest = [] := by
  obtain ⟨-, hlisted, hwritten⟩ := bracket_means
  constructor
  · exact hwritten ⟨false, [⟨'-', ']'⟩, ⟨'^', '^'⟩]⟩ (by decide) (by decide) 0 1 ['a']
  · have hl : ListsClass ['^', ']', '+', '-', '-', 'a', '-', ']']
        ⟨true, [⟨']', ']'⟩, ⟨'+', '-'⟩, ⟨'a', 'a'⟩, ⟨'-', '-'⟩]⟩ [] :=
      .negated <| .item (.single (.bare (by decide)) (by decide) (by simp)) <|
        .item (.range (.bare (by decide)) (by decide) (by decide) (.bare (by decide)) (by decide)) <|
        .item (.single (.bare (by decide)) (by decide) (by simp)) <|
        .item (.single (.bare (by decide)) (by decide) (by simp)) .close
    obtain ⟨o, ho⟩ := hlisted _ _ _ hl 0 1
    exact ⟨_, ho, rfl⟩

end PatternGraph
