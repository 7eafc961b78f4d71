import PatternGraph.Proofs.Graph.Fits
import PatternGraph.Proofs.Pattern.Constructs

/-!
# Which patterns are accepted

The reader goes from left to right and keeps the open groups on a stack, the grammar is recursive. A
reading that succeeds is turned into a derivation from its end: what is left derives as many groups
as are open. A derivation is turned into a reading from its leaves: the reader comes from the
beginning of each part to its end.

* `Limits.Suffice`: a pattern is read without coming to a limit, **`suffice_of_length`**: which it
  is if the limits are large for its length;
* `Closes`, `Reading.Leads`: what is left behind open groups;
  **`Reading.Reads.leads`**, `Reading.leads_of_toEnd`: one construct, a whole reading;
* `Reading.Reaches`: the reader goes on from another place; **`Derives.exists_reaches`**: it does
  behind each part of the grammar;
* **`compile_iff_derives`**: a pattern is accepted if and only if it derives from the grammar.
-/

namespace PatternGraph

/-- The cause is one of the limits. -/
def Cause.IsLimit : Cause → Prop
  | .nestingLimit _ => True
  | .nodeLimit _ => True
  | _ => False

/-- A pattern is compiled without coming to one of the limits. -/
def Limits.Suffice (limits : Limits) (pattern : String) : Prop :=
  ∀ e, compile limits pattern = .error e → ¬ e.cause.IsLimit

/-! ## Readings lead to derivations -/

section

variable {d m k n : Nat} {s s' t : List Char}

theorem Derives.of_branch {K : List Char → List Char → Prop}
    (hb : ∀ {l t}, Derives K .branch k s' l t → Derives K .branch m s l t)
    (h : Derives K .pattern k s' n t) : Derives K .pattern m s n t := by
  cases h with
  | single h => exact .single (hb h)
  | choice h h' => exact .choice (hb h) h'

/-- The text closes `d` groups, with the rest of a pattern in each of them, and goes on to its end.
A group may be quantified where it is closed. -/
def Closes : Nat → Nat → List Char → Nat → Prop
  | 0, m, s, n => Derives BracketText .pattern m s n []
  | d + 1, m, s, n => ∃ k t u, Derives BracketText .pattern m s k (')' :: t) ∧
    (u = t ∨ QuantifierText t u) ∧ Closes d k u n

theorem Closes.of_pattern
    (hp : ∀ {l t}, Derives BracketText .pattern k s' l t → Derives BracketText .pattern m s l t)
    (h : Closes d k s' n) : Closes d m s n := by
  cases d with
  | zero => exact hp h
  | succ d =>
    obtain ⟨l, t, u, hclose, hrest⟩ := h
    exact ⟨l, t, u, hp hclose, hrest⟩

theorem Closes.of_branch
    (hb : ∀ {l t}, Derives BracketText .branch k s' l t → Derives BracketText .branch m s l t)
    (h : Closes d k s' n) : Closes d m s n :=
  h.of_pattern (Derives.of_branch hb)

end

namespace Reading

/-- What is left closes the open groups, behind a quantifier if there may be one. -/
def Leads (r : Reading) (n : Nat) : Prop :=
  ∃ u, (u = r.cursor.rest ∨ r.Quantifiable ∧ QuantifierText r.cursor.rest u) ∧
    Closes r.opened.length r.groups u n

section

variable {limits : Limits} {c : Cursor} {r s : Reading} {n : Nat}

theorem leads_of_closes (h : Closes r.opened.length r.groups r.cursor.rest n) : r.Leads n :=
  ⟨_, .inl rfl, h⟩

/-- Behind anything but an atom there is no quantifier. -/
theorem Leads.closes (h : s.Leads n) (hq : ¬ s.Quantifiable) :
    Closes s.opened.length s.groups s.cursor.rest n := by
  obtain ⟨u, rfl | ⟨hquant, -⟩, hu⟩ := h
  · exact hu
  · exact absurd hquant hq

/-- **What leads to a derivation behind a construct does so in front of it.** -/
theorem Reads.leads (hr : r.Reads s) (h : s.Leads n) : r.Leads n := by
  -- only behind an atom may there be a quantifier
  have hclosed : (∀ a items, s.scope.items ≠ .atom a none :: items) →
      Closes s.opened.length s.groups s.cursor.rest n :=
    fun hi => h.closes fun ⟨a, items, h⟩ => hi a items h
  cases hr with
  | atom c nodes a ha =>
    obtain ⟨u, hu, hrest⟩ := h
    exact leads_of_closes (hrest.of_branch fun hb => .item ha (hu.imp_right And.right) hb)
  | anchor c nodes a ha =>
    exact leads_of_closes ((hclosed nofun).of_branch fun hb => ha.append nofun hb)
  | quantified c nodes a items q hi hq =>
    exact ⟨c.rest, .inr ⟨⟨a, items, hi⟩, hq⟩, hclosed nofun⟩
  | opens c nodes hc =>
    obtain ⟨k, t, u, hp, hu, hrest⟩ := hclosed nofun
    refine leads_of_closes (hrest.of_branch fun hb => ?_)
    rw [hc]
    exact .item (.group hp) hu hb
  | closes c g opened hc ho =>
    obtain ⟨u, hu, hrest⟩ := h
    apply leads_of_closes
    rw [hc, ho]
    exact ⟨r.groups, c.rest, u, .single .empty, hu.imp_right And.right, hrest⟩
  | bar c hc =>
    refine leads_of_closes ((hclosed nofun).of_pattern fun hp => ?_)
    rw [hc]
    exact .choice .empty hp

theorem leads_of_toEnd (hs : r.toEnd limits = .ok s) (ho : s.opened = []) : r.Leads s.groups := by
  fun_induction Reading.toEnd limits r with
  | case1 r hc =>
    cases hs
    apply leads_of_closes
    rw [hc, ho]
    exact .single .empty
  | case2 => cases hs
  | case3 r x rest hc t hn ih => exact (reads_of_next hc hn).leads (ih hs)

end

/-! ## Derivations lead to readings -/

/-- Reading on does not come to a limit. -/
def Unlimited (limits : Limits) (r : Reading) : Prop :=
  ∀ e, r.toEnd limits = .error e → ¬ e.cause.IsLimit

/-- Reading goes on from `s`, with the same groups open, `t` left and `n` groups so far. -/
structure Reaches (limits : Limits) (n : Nat) (t : List Char) (r s : Reading) : Prop where
  toEnd : r.toEnd limits = s.toEnd limits
  rest : s.cursor.rest = t
  groups : s.groups = n
  opened : s.opened = r.opened

section

variable {limits : Limits} {c : Cursor} {r s q : Reading} {m n k : Nat} {t u : List Char} {x : Char}
  {rest : List Char}

theorem Unlimited.of_toEnd (h : r.Unlimited limits) (heq : r.toEnd limits = s.toEnd limits) :
    s.Unlimited limits := by
  rwa [Unlimited, heq] at h

theorem Reaches.trans (h : r.Reaches limits m t s) (h' : s.Reaches limits n u q) :
    r.Reaches limits n u q :=
  ⟨h.toEnd.trans h'.toEnd, h'.rest, h'.groups, h'.opened.trans h.opened⟩

theorem next_literal (hx : x ∉ metacharacters) :
    r.next limits x c = r.addAtom limits (.test (.literal x)) c := by
  unfold next
  split
  case h_13 => rfl
  all_goals simp [metacharacters] at hx

theorem next_bracket {y : CharClass} {d : Cursor} (h : c.bracket r.cursor.offset = .ok (y, d)) :
    r.next limits '[' c = r.addAtom limits (.test (.oneOf y)) d := by
  change r.addBracket limits c = _
  rw [addBracket, h]

theorem next_escape {offset : Nat} (hx : x.isDigit = false) :
    r.next limits '\\' ⟨x :: t, offset⟩ =
      r.addAtom limits (.test (escapedTest x)) ⟨t, offset + 1⟩ := by
  change r.addEscape limits ⟨x :: t, offset⟩ = _
  simp only [addEscape, hx, Bool.false_eq_true, if_false]

theorem next_backref {d : Cursor} (h : c.number = .ok (k, d)) (hk : k ≤ r.groups) :
    r.next limits '\\' c = r.addAtom limits (.backref k) d := by
  change r.addEscape limits c = _
  obtain ⟨hne, -⟩ := Cursor.number_eq_ok.1 h
  rw [addEscape]
  split
  · next hc => simp [hc] at hne
  · next x rest hc =>
    have hx : x.isDigit = true := by
      cases hx : x.isDigit with
      | false => simp [hc, hx] at hne
      | true => rfl
    rw [if_pos hx, addBackref, h]
    exact if_pos hk

variable (hu : r.Unlimited limits)

include hu

theorem exists_claim {count : Nat} (hc : r.cursor.rest = x :: rest)
    (hn : r.next limits x ⟨rest, r.cursor.offset + 1⟩ = q.claim limits count c) :
    ∃ nodes, r.toEnd limits = toEnd limits { q with cursor := c, nodes } := by
  have hto := toEnd_of_next limits hc
  rw [hn, claim] at hto
  split at hto
  · exact ⟨_, hto⟩
  · exact absurd trivial (hu _ hto)

theorem exists_reaches_of_addAtom {a : Atom} (hc : r.cursor.rest = x :: rest)
    (hn : r.next limits x ⟨rest, r.cursor.offset + 1⟩ = r.addAtom limits a c) :
    ∃ s, r.Reaches limits r.groups c.rest s ∧ ∃ a, s.scope = r.scope.add (.atom a none) := by
  obtain ⟨nodes, hto⟩ := exists_claim hu hc hn
  exact ⟨_, ⟨hto, rfl, rfl, rfl⟩, a, rfl⟩

theorem exists_reaches_of_quantify {a : Atom} {items : Branch} {y : Quantifier}
    {quantifier : Cursor → Except Fault (Quantifier × Cursor)}
    (hi : r.scope.items = .atom a none :: items) (hc : r.cursor.rest = x :: rest)
    (hn : r.next limits x ⟨rest, r.cursor.offset + 1⟩ =
      r.quantify limits quantifier ⟨rest, r.cursor.offset + 1⟩)
    (hq : quantifier ⟨rest, r.cursor.offset + 1⟩ = .ok (y, c)) :
    ∃ s, r.Reaches limits r.groups c.rest s := by
  rw [quantify, hi] at hn
  dsimp only at hn
  rw [hq] at hn
  obtain ⟨nodes, hto⟩ := exists_claim hu hc hn
  exact ⟨_, hto, rfl, rfl, rfl⟩

theorem exists_reaches_of_quantifierText {a : Atom} {items : Branch}
    (hi : r.scope.items = .atom a none :: items) (h : QuantifierText r.cursor.rest t) :
    ∃ s, r.Reaches limits r.groups t s := by
  generalize hc : r.cursor.rest = text at h
  have hsign : ∀ {x u} {y : Quantifier}, text = x :: u → (∀ c, r.next limits x c =
      r.quantify limits (fun c => .ok (y, c)) c) → ∃ s, r.Reaches limits r.groups u s := by
    rintro x u y rfl hn
    exact exists_reaches_of_quantify hu hi hc (hn _) rfl
  have hbraces : ∀ {u}, text = '{' :: u → QuantifierText ('{' :: u) t →
      ∃ s, r.Reaches limits r.groups t s := by
    rintro u rfl h
    obtain ⟨y, d, hd, rfl⟩ := (quantifierText_iff r.cursor.offset (r.cursor.offset + 1)).1 h
    exact exists_reaches_of_quantify hu hi hc rfl hd
  cases h with
  | optional => exact hsign rfl fun _ => rfl
  | star => exact hsign rfl fun _ => rfl
  | plus => exact hsign rfl fun _ => rfl
  | exactly hm => exact hbraces rfl (.exactly hm)
  | atLeast hm => exact hbraces rfl (.atLeast hm)
  | between hm hn hle => exact hbraces rfl (.between hm hn hle)

theorem exists_opened (hc : r.cursor.rest = '(' :: rest) : ∃ s : Reading,
    r.toEnd limits = s.toEnd limits ∧ s.cursor.rest = rest ∧ s.groups = r.groups + 1 ∧
      ∃ g, s.opened = g :: r.opened ∧ g.outer = r.scope := by
  have hto := toEnd_of_next limits hc
  change _ = (r.openGroup limits ⟨rest, r.cursor.offset + 1⟩).bind _ at hto
  rw [openGroup] at hto
  split at hto
  · next hlt =>
    have hn : r.next limits '(' ⟨rest, r.cursor.offset + 1⟩ =
        r.openGroup limits ⟨rest, r.cursor.offset + 1⟩ := rfl
    rw [openGroup, if_pos hlt] at hn
    obtain ⟨nodes, hto⟩ := exists_claim hu hc hn
    exact ⟨_, hto, rfl, rfl, _, rfl, rfl⟩
  · exact absurd trivial (hu _ hto)

omit hu in
theorem exists_closed {g : OpenGroup} {opened : List OpenGroup} (hc : r.cursor.rest = ')' :: rest)
    (ho : r.opened = g :: opened) : ∃ s : Reading, r.toEnd limits = s.toEnd limits ∧
      s.cursor.rest = rest ∧ s.groups = r.groups ∧ s.opened = opened ∧
        ∃ a, s.scope = g.outer.add (.atom a none) := by
  have hto := toEnd_of_next limits hc
  change _ = (r.closeGroup ⟨rest, r.cursor.offset + 1⟩).bind _ at hto
  rw [closeGroup, ho] at hto
  exact ⟨_, hto, rfl, rfl, rfl, _, rfl⟩

end

end Reading

open Reading in
/-- **In front of a part of the grammar the reader comes behind it**, and what was an atom may be
quantified. -/
theorem Derives.exists_reaches {limits : Limits} {part : Part} {m n : Nat} {s t : List Char}
    (h : Derives BracketText part m s n t) : ∀ r : Reading, r.Unlimited limits → r.groups = m →
      r.cursor.rest = s → ∃ r', r.Reaches limits n t r' ∧
        (part = .atom → ∃ a, r'.scope = r.scope.add (.atom a none)) := by
  induction h with
  | single _ ih =>
    intro r hu hm hs
    obtain ⟨r', h, -⟩ := ih r hu hm hs
    exact ⟨r', h, nofun⟩
  | choice _ _ ih ih' =>
    intro r hu hm hs
    obtain ⟨r₁, h₁, -⟩ := ih r hu hm hs
    have hbar := toEnd_of_next limits h₁.rest
    obtain ⟨r₂, h₂, -⟩ := ih' _ ((hu.of_toEnd h₁.toEnd).of_toEnd hbar) h₁.groups rfl
    exact ⟨r₂, h₁.trans ⟨hbar.trans h₂.toEnd, h₂.rest, h₂.groups, h₂.opened⟩, nofun⟩
  | empty =>
    intro r _ hm hs
    exact ⟨r, ⟨rfl, hs, hm, rfl⟩, nofun⟩
  | anchorStart _ ih | anchorEnd _ ih =>
    intro r hu hm hs
    obtain ⟨nodes, hto⟩ := exists_claim hu hs rfl
    obtain ⟨r', h, -⟩ := ih _ (hu.of_toEnd hto) hm rfl
    exact ⟨r', ⟨hto.trans h.toEnd, h.rest, h.groups, h.opened⟩, nofun⟩
  | @item m k n s t u v _ hq _ ih ih' =>
    intro r hu hm hs
    obtain ⟨r₁, h₁, hatom⟩ := ih r hu hm hs
    obtain ⟨a, ha⟩ := hatom rfl
    have hbehind : ∃ r₂, r.Reaches limits k u r₂ := by
      rcases hq with rfl | hq
      · exact ⟨r₁, h₁⟩
      · have hi : r₁.scope.items = .atom a none :: r.scope.items := by rw [ha]; rfl
        obtain ⟨r₂, h₂⟩ := exists_reaches_of_quantifierText (hu.of_toEnd h₁.toEnd) hi (h₁.rest ▸ hq)
        exact ⟨r₂, h₁.trans (h₁.groups ▸ h₂)⟩
    obtain ⟨r₂, h₂⟩ := hbehind
    obtain ⟨r₃, h₃, -⟩ := ih' r₂ (hu.of_toEnd h₂.toEnd) h₂.groups h₂.rest
    exact ⟨r₃, h₂.trans h₃, nofun⟩
  | literal hx =>
    rintro r hu rfl hs
    obtain ⟨r', h, ha⟩ := exists_reaches_of_addAtom hu hs (next_literal hx)
    exact ⟨r', h, fun _ => ha⟩
  | any =>
    rintro r hu rfl hs
    obtain ⟨r', h, ha⟩ := exists_reaches_of_addAtom hu hs rfl
    exact ⟨r', h, fun _ => ha⟩
  | group _ ih =>
    rintro r hu rfl hs
    obtain ⟨r₁, hto, hrest, hgroups, g, hopened, houter⟩ := exists_opened hu hs
    obtain ⟨r₂, h₂, -⟩ := ih r₁ (hu.of_toEnd hto) hgroups hrest
    obtain ⟨r₃, hto', hrest', hgroups', hopened', ha⟩ :=
      exists_closed h₂.rest (h₂.opened.trans hopened)
    exact ⟨r₃, ⟨(hto.trans h₂.toEnd).trans hto', hrest', hgroups'.trans h₂.groups, hopened'⟩,
      fun _ => houter ▸ ha⟩
  | bracket hk =>
    rintro r hu rfl hs
    obtain ⟨k, d, hd, rfl⟩ := (bracketText_iff r.cursor.offset (r.cursor.offset + 1)).1 hk
    obtain ⟨r', h, ha⟩ := exists_reaches_of_addAtom hu hs (next_bracket hd)
    exact ⟨r', h, fun _ => ha⟩
  | backref hk hle =>
    rintro r hu rfl hs
    obtain ⟨o, ho⟩ := (numeral_iff (r.cursor.offset + 1)).1 hk
    obtain ⟨r', h, ha⟩ := exists_reaches_of_addAtom hu hs (next_backref ho hle)
    exact ⟨r', h, fun _ => ha⟩
  | escape hx =>
    rintro r hu rfl hs
    obtain ⟨r', h, ha⟩ := exists_reaches_of_addAtom hu hs (next_escape hx)
    exact ⟨r', h, fun _ => ha⟩

/-! ## Limits that are large for a pattern -/

namespace Cursor

variable {c : Cursor} {e : Fault}

theorem not_isLimit_of_number (h : c.number = .error e) : ¬ e.cause.IsLimit := by
  unfold number at h
  dsimp only at h
  split at h
  · cases h
    exact id
  · split at h
    · cases h
    · cases h
      exact id

theorem not_isLimit_of_upperBound {min : Nat} (h : c.upperBound min = .error e) :
    ¬ e.cause.IsLimit := by
  unfold upperBound at h
  split at h
  · cases h
  · split at h
    · next hn =>
      cases h
      exact not_isLimit_of_number hn
    · cases h
  · cases h

theorem not_isLimit_of_bounds {opening : Nat} (h : c.bounds opening = .error e) :
    ¬ e.cause.IsLimit := by
  unfold bounds at h
  split at h
  · next hn =>
    cases h
    exact not_isLimit_of_number hn
  split at h
  · next hm =>
    cases h
    exact not_isLimit_of_upperBound hm
  split at h
  · cases h
    exact id
  · split at h
    · cases h
    · split at h
      · cases h
      · cases h
        exact id
  · cases h
    exact id

theorem not_isLimit_of_counted {opening : Nat} (h : c.counted opening = .error e) :
    ¬ e.cause.IsLimit := by
  unfold counted at h
  split at h
  · next hb =>
    cases h
    exact not_isLimit_of_bounds hb
  · cases h

theorem not_isLimit_of_ranges {opening : Nat} {isFirst : Bool} {found : List CharRange}
    (h : c.ranges opening isFirst found = .error e) : ¬ e.cause.IsLimit := by
  fun_induction ranges opening isFirst found c with
  | case1 | case3 | case5 | case7 =>
    cases h
    exact id
  | case2 => cases h
  | case4 _ _ _ _ _ _ _ _ _ _ _ ih => exact ih h
  | case6 _ _ _ _ _ _ _ _ _ _ _ _ _ _ _ _ _ ih => exact ih h
  | case8 _ _ _ _ _ _ _ _ _ _ _ ih => exact ih h

theorem not_isLimit_of_bracket {opening : Nat} (h : c.bracket opening = .error e) :
    ¬ e.cause.IsLimit := by
  unfold bracket at h
  split at h
  · next hr =>
    cases h
    exact not_isLimit_of_ranges hr
  · cases h

end Cursor

namespace Reading

variable {limits : Limits} {c : Cursor} {r s : Reading} {e : Fault}

/-- There is room for what is left: each character takes two nodes at most, and opens one group at
most. -/
structure Roomy (limits : Limits) (r : Reading) : Prop where
  nodes : r.nodes + 2 * r.cursor.rest.length ≤ limits.nodes
  nesting : r.opened.length + r.cursor.rest.length ≤ limits.nesting

theorem not_isLimit_of_claim {count : Nat} (hle : r.nodes + count ≤ limits.nodes)
    (h : r.claim limits count c = .error e) : ¬ e.cause.IsLimit := by
  rw [claim, if_pos hle] at h
  cases h

theorem not_isLimit_of_quantify {quantifier : Cursor → Except Fault (Quantifier × Cursor)}
    (hle : r.nodes + 2 ≤ limits.nodes)
    (hq : ∀ {e}, quantifier c = .error e → ¬ e.cause.IsLimit)
    (h : r.quantify limits quantifier c = .error e) : ¬ e.cause.IsLimit := by
  unfold quantify at h
  split at h
  · split at h
    · next hd =>
      cases h
      exact hq hd
    · next q d _ =>
      refine not_isLimit_of_claim (Nat.le_trans ?_ hle) h
      cases q <;> simp [Quantifier.nodes]
  · cases h
    exact id
  · cases h
    exact id

theorem not_isLimit_of_add {item : Item} (hle : r.nodes + 1 ≤ limits.nodes)
    (h : r.add limits item c = .error e) : ¬ e.cause.IsLimit := by
  refine not_isLimit_of_claim ?_ h
  exact hle

theorem not_isLimit_of_addEscape (hle : r.nodes + 1 ≤ limits.nodes)
    (h : r.addEscape limits c = .error e) : ¬ e.cause.IsLimit := by
  unfold addEscape at h
  split at h
  · cases h
    exact id
  · split at h
    · unfold addBackref at h
      split at h
      · next hn =>
        cases h
        exact Cursor.not_isLimit_of_number hn
      · split at h
        · exact not_isLimit_of_add hle h
        · cases h
          exact id
    · exact not_isLimit_of_add hle h

theorem Roomy.not_isLimit {x : Char} {rest : List Char} (hr : r.Roomy limits)
    (hc : r.cursor.rest = x :: rest) (h : r.next limits x c = .error e) : ¬ e.cause.IsLimit := by
  have htwo : r.nodes + 2 ≤ limits.nodes := by
    have := hr.nodes
    rw [hc, List.length_cons] at this
    omega
  have hone : r.nodes + 1 ≤ limits.nodes := Nat.le_of_succ_le htwo
  unfold next at h
  split at h
  · have hlt : r.opened.length < limits.nesting := by
      have := hr.nesting
      rw [hc, List.length_cons] at this
      omega
    rw [openGroup, if_pos hlt] at h
    refine not_isLimit_of_claim ?_ h
    exact htwo
  · unfold closeGroup at h
    split at h
    · cases h
      exact id
    · cases h
  · cases h
  · exact not_isLimit_of_quantify htwo (fun hq => by cases hq) h
  · exact not_isLimit_of_quantify htwo (fun hq => by cases hq) h
  · exact not_isLimit_of_quantify htwo (fun hq => by cases hq) h
  · exact not_isLimit_of_quantify htwo Cursor.not_isLimit_of_counted h
  · exact not_isLimit_of_add hone h
  · exact not_isLimit_of_add hone h
  · exact not_isLimit_of_add hone h
  · unfold addBracket at h
    split at h
    · next hb =>
      cases h
      exact Cursor.not_isLimit_of_bracket hb
    · exact not_isLimit_of_add hone h
  · exact not_isLimit_of_addEscape hone h
  · exact not_isLimit_of_add hone h

theorem Grows.nodes_le (h : r.Grows s) :
    s.nodes ≤ r.nodes + 2 ∧ s.opened.length ≤ r.opened.length + 1 := by
  cases h with
  | item c item _ => exact ⟨Nat.add_le_add_left (Nat.le_succ 1) _, Nat.le_succ _⟩
  | opens c => exact ⟨Nat.le_refl _, Nat.le_refl _⟩
  | closes c g opened ho =>
    rw [ho]
    exact ⟨Nat.le_add_right _ 2, Nat.le_add_right _ 2⟩
  | bar c => exact ⟨Nat.le_add_right _ 2, Nat.le_succ _⟩
  | quantified c a items q _ _ =>
    refine ⟨Nat.add_le_add_left ?_ _, Nat.le_succ _⟩
    cases q <;> simp [Quantifier.nodes]

theorem Roomy.next {x : Char} {rest : List Char} (hr : r.Roomy limits)
    (hc : r.cursor.rest = x :: rest)
    (hs : r.next limits x ⟨rest, r.cursor.offset + 1⟩ = .ok s) : s.Roomy limits := by
  obtain ⟨hnodes, hopened⟩ := (grows_of_next hs).nodes_le
  have hlt : s.cursor.rest.length ≤ rest.length := by
    rcases reaches_of_next hs with h | h
    · exact Nat.le_of_eq (congrArg (·.rest.length) h)
    · exact Nat.le_of_lt h.length_lt
  have hroom := hr.nodes
  have hnesting := hr.nesting
  rw [hc, List.length_cons] at hroom hnesting
  exact ⟨by omega, by omega⟩

theorem Roomy.unlimited (hr : r.Roomy limits) : r.Unlimited limits := by
  intro e h
  fun_induction Reading.toEnd limits r with
  | case1 => cases h
  | case2 r x rest hc _ hn =>
    cases h
    exact hr.not_isLimit hc hn
  | case3 r x rest hc t hn ih => exact ih (hr.next hc hn) h

end Reading

theorem suffice_iff {limits : Limits} {pattern : String} : limits.Suffice pattern ↔
    2 ≤ limits.nodes ∧ (Reading.ofList pattern.toList).Unlimited limits := by
  have hcompile : limits.Suffice pattern ↔
      ∀ e, Pattern.read limits pattern.toList = .error e → ¬ e.cause.IsLimit := by
    rw [Limits.Suffice, compile]
    cases Pattern.read limits pattern.toList with
    | error e => simp
    | ok p => simp
  rw [hcompile, Pattern.read]
  split
  · next hlt =>
    refine iff_of_false (fun h => h _ rfl trivial) fun h => Nat.not_le_of_lt hlt h.1
  · next hle =>
    rw [Reading.Unlimited]
    cases (Reading.ofList pattern.toList).toEnd limits with
    | error e => simp [Nat.le_of_not_lt hle]
    | ok r =>
      have hfinish : ∀ e, r.finish = .error e → ¬ e.cause.IsLimit := by
        intro e h
        unfold Reading.finish at h
        split at h
        · cases h
        · cases h
          exact id
      simpa [Nat.le_of_not_lt hle] using hfinish

/-- **Limits suffice for a pattern if there are two nodes for each of its characters and for the
whole match, and as many groups may be nested as there are characters.** -/
theorem suffice_of_length {limits : Limits} {pattern : String}
    (hnodes : 2 * pattern.toList.length + 2 ≤ limits.nodes)
    (hnesting : pattern.toList.length ≤ limits.nesting) : limits.Suffice pattern := by
  have hroomy : (Reading.ofList pattern.toList).Roomy limits :=
    ⟨by rw [Nat.add_comm]; exact hnodes, by rw [Nat.add_comm]; exact hnesting⟩
  exact suffice_iff.2 ⟨Nat.le_trans (Nat.le_add_left 2 _) hnodes, hroomy.unlimited⟩

/-! ## Acceptance -/

/-- **A pattern is accepted if and only if it derives from the grammar**, with as many groups as its
graph has, unless a limit is come to; and none is if the limits are large for its length. -/
theorem compile_iff_derives (pattern : String) :
    (∀ limits : Limits, 2 * pattern.toList.length + 2 ≤ limits.nodes →
      pattern.toList.length ≤ limits.nesting → limits.Suffice pattern) ∧
    ∀ limits : Limits, limits.Suffice pattern → ∀ n,
      (∃ g, compile limits pattern = .ok g ∧ g.groups = n) ↔
        Derives BracketText .pattern 0 pattern.toList n [] := by
  refine ⟨fun limits => suffice_of_length, fun limits hs n => ⟨?_, fun h => ?_⟩⟩
  · rintro ⟨g, hg, rfl⟩
    obtain ⟨p, hp, rfl⟩ := exists_read_of_compile hg
    obtain ⟨-, r, hr, ho, rfl⟩ := Pattern.read_eq_ok.1 hp
    exact (Reading.leads_of_toEnd hr ho).closes fun ⟨a, items, hi⟩ => by cases hi
  · obtain ⟨hle, hu⟩ := suffice_iff.1 hs
    obtain ⟨r, hr, -⟩ := h.exists_reaches (Reading.ofList pattern.toList) hu rfl rfl
    have hend : r.toEnd limits = .ok r := by
      rw [Reading.toEnd]
      split
      · rfl
      · next hc => rw [hr.rest] at hc; cases hc
    have hread : Pattern.read limits pattern.toList = .ok ⟨r.scope.body, r.groups⟩ :=
      Pattern.read_eq_ok.2 ⟨hle, r, hr.toEnd.trans hend, hr.opened, rfl⟩
    refine ⟨Graph.ofPattern ⟨r.scope.body, r.groups⟩, ?_, hr.groups⟩
    rw [compile, hread]

/-- A class that begins with a closing bracket, bounds without an end and a reference. -/
theorem compile_iff_derives_bracket : Limits.Suffice {} "([^]-a]{2,})\\1" ∧
    ∃ g, compile {} "([^]-a]{2,})\\1" = .ok g ∧ g.groups = 1 := by
  obtain ⟨hsuffice, hderives⟩ := compile_iff_derives "([^]-a]{2,})\\1"
  have hs : Limits.Suffice {} "([^]-a]{2,})\\1" := hsuffice {} (by decide) (by decide)
  have hclass : BracketText "^]-a]{2,})\\1".toList "{2,})\\1".toList :=
    .negated (.item (.range (.bare (by decide)) ⟨fun _ => .inr rfl, fun h => absurd h (by decide)⟩
      (by decide) (.bare (by decide)) (by decide)) .close)
  have hbounds : QuantifierText "{2,})\\1".toList ")\\1".toList :=
    .atLeast ⟨['2'], List.cons_ne_nil _ _, fun d hd => List.mem_singleton.1 hd ▸ rfl,
      fun x hx => Option.mem_some.1 hx ▸ rfl, rfl, rfl, by decide⟩
  have hnumber : Numeral "1".toList 1 [] :=
    ⟨['1'], List.cons_ne_nil _ _, fun d hd => List.mem_singleton.1 hd ▸ rfl, nofun, rfl, rfl,
      by decide⟩
  refine ⟨hs, (hderives {} hs 1).2 ?_⟩
  exact .single (.item (.group (.single (.item (.bracket hclass) (.inr hbounds) .empty))) (.inl rfl)
    (.item (.backref hnumber (by decide)) (.inl rfl) .empty))

/-- A class that holds nothing but a caret is refused: the caret is never an item in first place. -/
theorem caret_alone_refused : Limits.Suffice {} "[^]" ∧
    ¬ ((∃ g, compile {} "[^]" = .ok g) ↔
      ∃ n, Derives BracketTextWithCaret .pattern 0 "[^]".toList n []) := by
  have hc : (compile {} "[^]").isOk = false := by decide +kernel
  have hclass : BracketTextWithCaret "^]".toList [] :=
    .listed (.item (.single (.bare (by decide)) ⟨by decide, by decide⟩
      fun _ h => absurd (List.cons.inj h).1 (by decide)) .close)
  refine ⟨suffice_of_length (by decide) (by decide), fun h => ?_⟩
  obtain ⟨g, hg⟩ := h.2 ⟨0, .single (.item (.bracket hclass) (.inl rfl) .empty)⟩
  rw [hg] at hc
  cases hc

end PatternGraph
