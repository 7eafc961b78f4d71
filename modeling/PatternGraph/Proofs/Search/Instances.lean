import PatternGraph.Proofs.Graph.Inside
import PatternGraph.Proofs.Graph.WellFormed
import PatternGraph.Proofs.Search.Path

/-!
# The instances of groups along a path

On a path the instances of a group come one after the other, and only the latest one of a group that
is open is unfinished. Since groups are closed in the order opposite to that in which they were
opened, each instance of a group inside another lies within an instance of that one.

* `Span.ClosedBy`, `Span.Before`, `Span.Within`: what is said of spans;
* `Settled`: finished instances, one after the other;
* `Instances`: which groups are open at a place, and what has been captured, **`Instances.move`**:
  move by move, **`Reaches.instances`**: on every way from the start;
* **`Reaches.around`**: the instances of a group inside another;
* **`Reaches.whole`**: the whole match has one instance, which begins where the subject does.
-/

namespace PatternGraph

/-! ## Spans -/

/-- Both ends are set and in order, and the span does not go beyond `bound`. -/
def Span.ClosedBy (bound : Nat) (s : Span) : Prop :=
  ∃ start stop, s = ⟨some start, some stop⟩ ∧ start ≤ stop ∧ stop ≤ bound

/-- The span ends no later than the other begins. -/
def Span.Before (s t : Span) : Prop :=
  ∃ stop start, s.stop = some stop ∧ t.start = some start ∧ stop ≤ start

/-- The span begins no earlier than the other and ends no later. -/
def Span.Within (s t : Span) : Prop :=
  ∃ a b c d, s = ⟨some a, some b⟩ ∧ t = ⟨some c, some d⟩ ∧ c ≤ a ∧ b ≤ d

/-- The span begins no later than the other. It has not ended yet, or no earlier than the other. -/
def Span.Around (t s : Span) : Prop :=
  (∃ c a, t.start = some c ∧ s.start = some a ∧ c ≤ a) ∧
    (t.stop = none ∨ ∃ b d, s.stop = some b ∧ t.stop = some d ∧ b ≤ d)

/-- Instances of a group, the latest first, that have been finished one after the other. -/
structure Settled (bound : Nat) (instances : List Span) : Prop where
  closed : ∀ s ∈ instances, s.ClosedBy bound
  ordered : instances.Pairwise fun later earlier => earlier.Before later

section

variable {bound a b : Nat} {s t : Span} {instances : List Span}

theorem settled_nil (bound : Nat) : Settled bound [] := ⟨by simp, .nil⟩

theorem Settled.mono {bound' : Nat} (h : Settled bound instances) (hb : bound ≤ bound') :
    Settled bound' instances := by
  refine ⟨fun s hs => ?_, h.ordered⟩
  obtain ⟨start, stop, he, hle, hstop⟩ := h.closed s hs
  exact ⟨start, stop, he, hle, Nat.le_trans hstop hb⟩

theorem Settled.cons (h : Settled a instances) (hab : a ≤ b) (hb : b ≤ bound) :
    Settled bound (⟨some a, some b⟩ :: instances) := by
  refine ⟨fun s hs => ?_, List.pairwise_cons.2 ⟨fun s hs => ?_, h.ordered⟩⟩
  · rcases List.mem_cons.1 hs with rfl | hs
    · exact ⟨a, b, rfl, hab, hb⟩
    · exact (h.mono (Nat.le_trans hab hb)).closed s hs
  · obtain ⟨start, stop, rfl, -, hstop⟩ := h.closed s hs
    exact ⟨stop, a, rfl, rfl, hstop⟩

theorem Span.Around.within {bound bound' : Nat} (h : t.Around s) (hs : s.ClosedBy bound)
    (ht : t.ClosedBy bound') : s.Within t := by
  obtain ⟨a, b, rfl, -, -⟩ := hs
  obtain ⟨c, d, rfl, -, -⟩ := ht
  obtain ⟨⟨_, _, ⟨⟩, ⟨⟩, hle⟩, ⟨⟨⟩⟩ | ⟨_, _, ⟨⟩, ⟨⟩, hle'⟩⟩ := h
  exact ⟨a, b, c, d, rfl, rfl, hle, hle'⟩

/-- What is around an unfinished span is unfinished, and stays around it when that ends. -/
theorem Span.Around.inner_ends (h : t.Around (.startingAt a)) : t.Around ⟨some a, some b⟩ := by
  refine ⟨h.1, .inl ?_⟩
  rcases h.2 with h | ⟨_, _, hb, -, -⟩
  · exact h
  · cases hb

theorem Span.Around.outer_ends (h : (Span.startingAt a).Around s) (hs : s.ClosedBy b) :
    (⟨some a, some b⟩ : Span).Around s := by
  obtain ⟨start, stop, rfl, -, hle⟩ := hs
  exact ⟨h.1, .inr ⟨stop, b, rfl, rfl, hle⟩⟩

end

/-! ## What is captured of a group -/

section

variable {mem : Memory} {j k offset : Nat}

theorem Memory.captures_openGroup_self (mem : Memory) (k offset : Nat) :
    (mem.openGroup k offset).captures k = .startingAt offset :: mem.captures k :=
  Function.update_self _ _ _

theorem Memory.captures_openGroup_of_ne (h : j ≠ k) :
    (mem.openGroup k offset).captures j = mem.captures j := Function.update_of_ne h _ _

theorem Memory.captures_closeGroup_self {start : Nat} {rest : List Span}
    (h : mem.captures k = .startingAt start :: rest) :
    (mem.closeGroup k offset).captures k = ⟨some start, some offset⟩ :: rest := by
  have hself : (mem.closeGroup k offset).captures k = State.setStop (some offset) (mem.captures k) :=
    Function.update_self _ _ _
  rw [hself, h]
  rfl

theorem Memory.captures_closeGroup_of_ne (h : j ≠ k) :
    (mem.closeGroup k offset).captures j = mem.captures j := Function.update_of_ne h _ _

end

/-- These groups are open at the place, innermost first. Each of them has an instance that has only
begun; all other instances are finished. -/
structure Instances (ns : Array Node) (p : Place) (opened : List Nat) (mem : Memory) : Prop where
  balanced : ∀ steps, Balanced ns steps p.node opened
  inTurn : OpenedInTurn ns opened
  latest : ∀ k ∈ opened, ∃ start rest, mem.captures k = .startingAt start :: rest ∧
    start ≤ p.offset ∧ Settled start rest
  settled : ∀ k, k ∉ opened → Settled p.offset (mem.captures k)

section

variable {g : Graph} {subject : Array Char} {p q : Place} {mem mem' : Memory} {opened : List Nat}
  {i j k : Nat} {next : List Nat}

theorem Graph.WellFormed.eq_of_groupOpen (hw : g.WellFormed) {k u v : Nat} {next next' : List Nat}
    (hu : g.nodes[u]? = some ⟨.groupOpen k, next⟩) (hv : g.nodes[v]? = some ⟨.groupOpen k, next'⟩) :
    u = v :=
  (hw.groupOpen k (hw.groups u _ hu)).unique ⟨next, hu⟩ ⟨next', hv⟩

theorem Graph.WellFormed.not_mem (hw : g.WellFormed) (hg : g.Fits) (h : OpenedInTurn g.nodes opened)
    {v : Nat} (hv : ∀ steps, Balanced g.nodes steps v opened)
    (hn : g.nodes[v]? = some ⟨.groupOpen k, next⟩) : k ∉ opened :=
  h.not_mem hg.nodes_terminal hw.reaches hw.eq_of_groupOpen hv hn

theorem Graph.WellFormed.nodup (hw : g.WellFormed) (hg : g.Fits) :
    ∀ {opened : List Nat}, OpenedInTurn g.nodes opened → opened.Nodup
  | [], _ => List.nodup_nil
  | k :: opened, h => by
    have hrest : OpenedInTurn g.nodes opened := fun i outer hi =>
      h i outer (hi.trans (List.suffix_cons k opened))
    obtain ⟨u, next, hu, hv⟩ := h k opened (List.suffix_refl _)
    exact List.nodup_cons.2 ⟨hw.not_mem hg hrest hv hu, hw.nodup hg hrest⟩

theorem Instances.eq_cons (h : Instances g.nodes p opened mem)
    (hn : g.nodes[p.node]? = some ⟨.groupClose k, next⟩) : ∃ after, opened = k :: after := by
  obtain ⟨after, ha, -⟩ := exists_nest h.balanced hn
  cases opened with
  | nil => cases ha
  | cons i rest =>
    simp only [NodeKind.nest, Option.ite_none_right_eq_some] at ha
    exact ⟨rest, by rw [ha.1]⟩

theorem Instances.eq_singleton (h : Instances g.nodes p opened mem)
    (hn : g.nodes[p.node]? = some ⟨.terminal, next⟩) : opened = [0] := by
  obtain ⟨after, ha, -⟩ := exists_nest h.balanced hn
  simp only [NodeKind.nest, Option.ite_none_right_eq_some] at ha
  exact ha.1

theorem Instances.unfinished (h : Instances g.nodes p opened mem)
    (hn : g.nodes[p.node]? = some ⟨.groupClose k, next⟩) : ∃ start rest,
      mem.captures k = .startingAt start :: rest ∧ start ≤ p.offset ∧ Settled start rest := by
  obtain ⟨after, rfl⟩ := h.eq_cons hn
  exact h.latest k List.mem_cons_self

variable (hw : g.WellFormed) (hg : g.Fits)

include hw hg

/-- **A move keeps the instances in order.** -/
theorem Instances.move (h : Instances g.nodes p opened mem) (hm : Move g subject p mem q mem') :
    ∃ after, Instances g.nodes q after mem' := by
  have hle := hm.offset_le
  -- where neither an instance begins nor one ends
  have hsame : ∀ {nd : Node}, g.nodes[p.node]? = some nd → nd.kind.nest opened = some opened →
      q.node ∈ nd.onto → mem'.captures = mem.captures →
      ∃ after, Instances g.nodes q after mem' := by
    intro nd hn ha hq hc
    obtain ⟨after, ha', honto⟩ := exists_nest h.balanced hn
    obtain rfl : opened = after := Option.some.inj (ha.symm.trans ha')
    refine ⟨opened, honto _ hq, h.inTurn, fun k hk => ?_, fun k hk => ?_⟩
    · obtain ⟨start, rest, he, hs, hrest⟩ := h.latest k hk
      exact ⟨start, rest, by rw [hc, he], Nat.le_trans hs hle, hrest⟩
    · rw [hc]
      exact (h.settled k hk).mono hle
  cases hm with
  | read hn hq | join hn hq | copy hn hq | anchor hn hq => exact hsame hn rfl hq rfl
  | loop hn hq => exact hsame hn rfl (List.mem_append_left _ hq) rfl
  | leave hn => exact hsame hn rfl (List.mem_append_right _ (List.mem_singleton.2 rfl)) rfl
  | @openGroup node offset next m k _ hn hq =>
    obtain ⟨after, ha, honto⟩ := exists_nest h.balanced hn
    cases ha
    have hk := hw.not_mem hg h.inTurn h.balanced hn
    refine ⟨k :: opened, honto _ hq, h.inTurn.nest h.balanced hn rfl, fun i hi => ?_,
      fun i hi => ?_⟩
    · rcases List.mem_cons.1 hi with rfl | hi
      · exact ⟨offset, _, mem.captures_openGroup_self i offset, Nat.le_refl _, h.settled i hk⟩
      · rw [Memory.captures_openGroup_of_ne fun he : i = k => hk (he ▸ hi)]
        exact h.latest i hi
    · rw [List.mem_cons, not_or] at hi
      rw [Memory.captures_openGroup_of_ne hi.1]
      exact h.settled i hi.2
  | @closeGroup node offset next m k _ hn hq =>
    obtain ⟨start, rest, he, hs, hrest⟩ := h.unfinished hn
    obtain ⟨after, rfl⟩ := h.eq_cons hn
    obtain ⟨after', ha, honto⟩ := exists_nest h.balanced hn
    obtain rfl : after = after' := Option.some.inj ((if_pos rfl).symm.trans ha)
    have hk := (List.nodup_cons.1 (hw.nodup hg h.inTurn)).1
    refine ⟨after, honto _ hq, h.inTurn.nest h.balanced hn ha, fun i hi => ?_, fun i hi => ?_⟩
    · rw [Memory.captures_closeGroup_of_ne fun he : i = k => hk (he ▸ hi)]
      exact h.latest i (List.mem_cons_of_mem k hi)
    · by_cases hik : i = k
      · subst hik
        rw [Memory.captures_closeGroup_self he]
        exact hrest.cons hs (Nat.le_refl _)
      · rw [Memory.captures_closeGroup_of_ne hik]
        exact h.settled i fun hm => (List.mem_cons.1 hm).elim hik hi

/-- **On every way from the start the instances are in order.** -/
theorem Reaches.instances (h : Reaches g subject p mem) :
    ∃ opened, Instances g.nodes p opened mem := by
  induction h with
  | start =>
    exact ⟨[], hg.balanced, openedInTurn_nil _, fun k hk => absurd hk List.not_mem_nil,
      fun k _ => settled_nil 0⟩
  | move _ hm ih =>
    obtain ⟨opened, h⟩ := ih
    exact h.move hw hg hm

/-! ## Groups inside groups -/

section

variable (hij : ∀ {v : Nat} {next outer : List Nat}, g.nodes[v]? = some ⟨.groupOpen j, next⟩ →
  (∀ steps, Balanced g.nodes steps v outer) → i ∈ outer)

include hij

omit hw hg in
theorem Instances.mem_of_suffix (h : Instances g.nodes p opened mem) {outer : List Nat}
    (hj : (j :: outer) <:+ opened) : i ∈ outer := by
  obtain ⟨u, next, hu, hv⟩ := h.inTurn j outer hj
  exact hij hu hv

/-- **Where the inner group is opened, an instance of the outer one has begun.** -/
theorem Instances.around_openGroup {node offset : Nat}
    (h : Instances g.nodes ⟨node, offset⟩ opened mem)
    (hn : g.nodes[node]? = some ⟨.groupOpen k, next⟩)
    (ha : ∀ s ∈ mem.captures j, ∃ t ∈ mem.captures i, t.Around s) :
    ∀ s ∈ (mem.openGroup k offset).captures j, ∃ t ∈ (mem.openGroup k offset).captures i,
      t.Around s := by
  intro s hs
  by_cases hkj : j = k
  · subst hkj
    have hi := hij hn h.balanced
    have hne : i ≠ j := fun he => hw.not_mem hg h.inTurn h.balanced hn (he ▸ hi)
    rw [Memory.captures_openGroup_of_ne hne]
    rw [Memory.captures_openGroup_self] at hs
    rcases List.mem_cons.1 hs with rfl | hs
    · obtain ⟨start, rest, he, hle, -⟩ := h.latest i hi
      exact ⟨_, he ▸ List.mem_cons_self, ⟨start, offset, rfl, rfl, hle⟩, .inl rfl⟩
    · exact ha s hs
  · rw [Memory.captures_openGroup_of_ne hkj] at hs
    obtain ⟨t, ht, hts⟩ := ha s hs
    by_cases hki : i = k
    · subst hki
      rw [Memory.captures_openGroup_self]
      exact ⟨t, List.mem_cons_of_mem _ ht, hts⟩
    · rw [Memory.captures_openGroup_of_ne hki]
      exact ⟨t, ht, hts⟩

/-- **Where the outer group is closed, all instances of the inner one have ended.** -/
theorem Instances.around_closeGroup {node offset : Nat}
    (h : Instances g.nodes ⟨node, offset⟩ opened mem)
    (hn : g.nodes[node]? = some ⟨.groupClose k, next⟩)
    (ha : ∀ s ∈ mem.captures j, ∃ t ∈ mem.captures i, t.Around s) :
    ∀ s ∈ (mem.closeGroup k offset).captures j, ∃ t ∈ (mem.closeGroup k offset).captures i,
      t.Around s := by
  obtain ⟨start, rest, he, -, -⟩ := h.unfinished hn
  obtain ⟨after, rfl⟩ := h.eq_cons hn
  have hk := (List.nodup_cons.1 (hw.nodup hg h.inTurn)).1
  intro s hs
  by_cases hkj : j = k
  · subst hkj
    have hne : i ≠ j := fun hi => hk (hi ▸ h.mem_of_suffix hij (List.suffix_refl _))
    rw [Memory.captures_closeGroup_of_ne hne]
    rw [Memory.captures_closeGroup_self he] at hs
    rcases List.mem_cons.1 hs with rfl | hs
    · obtain ⟨t, ht, hts⟩ := ha _ (he ▸ List.mem_cons_self)
      exact ⟨t, ht, hts.inner_ends⟩
    · exact ha s (he ▸ List.mem_cons_of_mem _ hs)
  · rw [Memory.captures_closeGroup_of_ne hkj] at hs
    obtain ⟨t, ht, hts⟩ := ha s hs
    by_cases hki : i = k
    · subst hki
      -- were the inner group open, it would have been opened inside the outer one
      have hj : j ∉ i :: after := by
        intro hj
        obtain ⟨inner, outer, rfl⟩ := List.append_of_mem ((List.mem_cons.1 hj).resolve_left hkj)
        refine hk (List.mem_append_right _ (List.mem_cons_of_mem j (h.mem_of_suffix hij ?_)))
        exact (List.suffix_append inner _).trans (List.suffix_cons i _)
      rw [Memory.captures_closeGroup_self he]
      rw [he] at ht
      rcases List.mem_cons.1 ht with rfl | ht
      · exact ⟨_, List.mem_cons_self, hts.outer_ends ((h.settled j hj).closed s hs)⟩
      · exact ⟨t, List.mem_cons_of_mem _ ht, hts⟩
    · rw [Memory.captures_closeGroup_of_ne hki]
      exact ⟨t, ht, hts⟩

/-- **On every way from the start there is an instance of the outer group around each of the inner
one.** -/
theorem Reaches.around (h : Reaches g subject p mem) :
    ∀ s ∈ mem.captures j, ∃ t ∈ mem.captures i, t.Around s := by
  induction h with
  | start => exact fun s hs => absurd hs List.not_mem_nil
  | move hr hm ih =>
    obtain ⟨opened, h⟩ := hr.instances hw hg
    cases hm with
    | read | join | copy | anchor | loop | leave => exact ih
    | openGroup hn => exact h.around_openGroup hw hg hij hn ih
    | closeGroup hn => exact h.around_closeGroup hw hg hij hn ih

end

end

/-! ## The whole match -/

section

variable {p : Pattern} {subject : Array Char} {x : Place} {mem : Memory}

theorem pos_of_groupClose (hp : Branches.numbers p.branches = List.range' 1 p.groups) {v k : Nat}
    {next : List Nat} (hn : (Graph.ofPattern p).nodes[v]? = some ⟨.groupClose k, next⟩) : 0 < k := by
  refine Nat.pos_of_ne_zero ?_
  rintro rfl
  have hgroup : NodeKind.OfGroup (· = .groupClose 0) 0 := by
    refine ⟨fun j => ?_, by simp, by simp, by simp, by simp, by simp⟩
    by_cases hj : j = 0 <;> simp [hj]
  have hcount : (Branches.numbers p.branches).count 0 = 0 := by
    rw [hp]
    exact List.count_eq_zero_of_not_mem fun h => absurd (List.mem_range'_1.1 h).1 (by decide)
  have htally := tally_ofPattern hgroup p
  rw [hcount] at htally
  have hmem := List.mem_of_getElem? (Array.getElem?_toList ▸ hn)
  exact List.countP_eq_zero.1 htally _ hmem (by simp)

/-- **The whole match has one instance, which begins where the subject does**, once the start has
been left. -/
theorem Reaches.whole (hw : (Graph.ofPattern p).WellFormed)
    (hp : Branches.numbers p.branches = List.range' 1 p.groups)
    (h : Reaches (Graph.ofPattern p) subject x mem) :
    x = ⟨0, 0⟩ ∧ mem = .empty ∨ x.node ≠ 0 ∧ mem.captures 0 = [.startingAt 0] := by
  obtain ⟨ho, -, -⟩ := liesAt_ofPattern p
  induction h with
  | start => exact .inl ⟨rfl, rfl⟩
  | @move x y mem mem' _ hm ih =>
    obtain ⟨nd, hn, hy⟩ := hm.exists_onto
    have hstart : y.node ≠ 0 := by
      intro h0
      rw [h0] at hy
      exact hw.fromStart x.node ⟨nd, hn, hy⟩
    refine .inr ⟨hstart, ?_⟩
    rcases ih with ⟨rfl, rfl⟩ | ⟨hne, hone⟩
    · rw [ho] at hn
      cases hn
      rw [← mem_moves, moves_groupOpen ho, mem_places] at hm
      rw [hm.2.2]
      exact Memory.captures_openGroup_self _ _ _
    · cases hm with
      | read | join | copy | anchor | loop | leave => exact hone
      | openGroup hn' =>
        rwa [Memory.captures_openGroup_of_ne]
        rintro rfl
        exact hne (hw.eq_of_groupOpen hn' ho)
      | closeGroup hn' =>
        rwa [Memory.captures_closeGroup_of_ne (Nat.ne_of_lt (pos_of_groupClose hp hn'))]

end

end PatternGraph
