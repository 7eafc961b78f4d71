import Mathlib.Data.List.Forall2
import PatternGraph.Proofs.Graph.Fits
import PatternGraph.Proofs.Search.Path

/-!
# What a state of the search knows of its path

* `Mirrors`: the state holds the captures of the path, and its counts as far as it can count;
* `Memory.Within`: between two visits of its node no count has got to the upper bound, so that
  `exceeded_min`, `mayLoop_min` and `satisfied_min` hold: counting further would decide nothing;
* `State.Marked`, `State.Trails`: the marks are the places of the path, and the latest is the
  largest;
* `Tracks`: all of this for a place that is about to be come to;
* **`onward_of_tracks`**: the search tries the moves of the place in their order, unless it is
  marked already.
-/

namespace PatternGraph

/-! ## Captures and counts -/

/-- The state holds the captures of a path, and its counts up to the limit. -/
structure Mirrors (g : Graph) (st : State) (mem : Memory) : Prop where
  captures : ∀ k ≤ g.groups, st.captures[k]? = some (mem.captures k)
  counts : ∀ n < g.size, st.counts[n]? = some (min countLimit (mem.counts n))

section

variable {g : Graph} {subject : Array Char} {st st' : State} {mem : Memory}

theorem mirrors_initial (g : Graph) : Mirrors g (.initial g.size g.groups) .empty := by
  refine ⟨fun k hk => ?_, fun n hn => ?_⟩
  · simp [State.initial, Memory.empty, Nat.lt_succ_of_le hk]
  · simp [State.initial, Memory.empty, hn]

theorem Mirrors.congr (h : Mirrors g st mem) (hc : st'.captures = st.captures)
    (hn : st'.counts = st.counts) : Mirrors g st' mem :=
  ⟨by rw [hc]; exact h.captures, by rw [hn]; exact h.counts⟩

theorem Mirrors.latest? (h : Mirrors g st mem) {k : Nat} (hk : k ≤ g.groups) :
    st.latest? k = (mem.captures k).head? := by
  rw [State.latest?, h.captures k hk]
  rfl

theorem Mirrors.count (h : Mirrors g st mem) {n : Nat} (hn : n < g.size) :
    st.count n = min countLimit (mem.counts n) := by
  rw [State.count, h.counts n hn]
  rfl

theorem Mirrors.modify (h : Mirrors g st mem) (k : Nat) (f : List Span → List Span) :
    Mirrors g { st with captures := st.captures.modify k f }
      { mem with captures := Function.update mem.captures k (f (mem.captures k)) } := by
  refine ⟨fun i hi => ?_, h.counts⟩
  dsimp only
  rw [Array.getElem?_modify, h.captures i hi]
  by_cases hik : k = i
  · subst hik
    rw [if_pos rfl, Function.update_self]
    rfl
  · rw [if_neg hik, Function.update_of_ne (Ne.symm hik)]

theorem Mirrors.openGroup (h : Mirrors g st mem) (k offset : Nat) :
    Mirrors g (st.openGroup k offset) (mem.openGroup k offset) :=
  h.modify k (.startingAt offset :: ·)

theorem Mirrors.closeGroup (h : Mirrors g st mem) {k : Nat} (hk : k ≤ g.groups)
    (hne : mem.captures k ≠ []) (offset : Nat) : ∃ stop st',
      st.closeGroup? k offset = some (stop, st') ∧ Mirrors g st' (mem.closeGroup k offset) := by
  cases hc : mem.captures k with
  | nil => exact absurd hc hne
  | cons s rest =>
    have hl : st.latest? k = some s := by rw [h.latest? hk, hc]; rfl
    exact ⟨s.stop, _, State.closeGroup?_eq_some.2 ⟨s, hl, rfl, rfl⟩,
      h.modify k (State.setStop (some offset))⟩

theorem Mirrors.setCount (h : Mirrors g st mem) (n count : Nat) :
    Mirrors g (st.setCount n (min countLimit count)) (mem.setCount n count) := by
  refine ⟨h.captures, fun i hi => ?_⟩
  simp only [State.setCount, Memory.setCount]
  by_cases hin : n = i
  · subst hin
    have hs : n < st.counts.size := (Array.getElem?_eq_some_iff.1 (h.counts n hi)).1
    rw [Array.getElem?_setIfInBounds_self_of_lt hs, Function.update_self]
  · rw [Array.getElem?_setIfInBounds_ne hin, Function.update_of_ne (Ne.symm hin), h.counts i hi]

theorem State.sameText_iff {i j : Nat} : ∀ {length : Nat},
    State.sameText subject i j length = true ↔
      ∀ k < length, subject[i + k]? = subject[j + k]? := by
  intro length
  induction length generalizing i j with
  | zero => simp [State.sameText]
  | succ n ih =>
    simp only [State.sameText, Bool.and_eq_true, beq_iff_eq, ih]
    constructor
    · rintro ⟨h0, h⟩ k hk
      cases k with
      | zero => exact h0
      | succ k =>
        have := h k (by omega)
        rwa [Nat.add_assoc, Nat.add_comm 1 k, Nat.add_assoc, Nat.add_comm 1 k] at this
    · intro h
      refine ⟨h 0 (by omega), fun k hk => ?_⟩
      have := h (k + 1) (by omega)
      rwa [Nat.add_comm k 1, ← Nat.add_assoc, ← Nat.add_assoc] at this

theorem Mirrors.copyEnd? (h : Mirrors g st mem) {k : Nat} (hk : k ≤ g.groups) (offset : Nat) :
    st.copyEnd? subject k offset = (mem.latest k).copyEnd? subject offset := by
  have hg : (st.group? k).bind Span.range? = (mem.latest k).range? := by
    rw [State.group?, h.latest? hk, Memory.latest]
    cases (mem.captures k).head? with
    | none => rfl
    | some s =>
      obtain ⟨_ | start, _ | stop⟩ := s <;> rfl
  rw [State.copyEnd?, Span.copyEnd?, hg]
  cases (mem.latest k).range? with
  | none => rfl
  | some r => simp only [State.sameText_iff]

/-! ## Counting up to the limit -/

/-- No repetition has been passed as often as its upper bound allows: from there on there would
have been no way but out of it. -/
def Memory.Within (g : Graph) (mem : Memory) : Prop :=
  ∀ (n : Nat) (bounds : Bounds) (exit : Nat) (next : List Nat),
    g.nodes[n]? = some ⟨.repetition bounds exit, next⟩ →
      mem.counts n = 0 ∨ ∀ max ∈ bounds.max, mem.counts n < max

theorem Memory.within_empty (g : Graph) : Memory.empty.Within g := fun _ _ _ _ _ => .inl rfl

theorem Memory.Within.setCount {node exit count : Nat} {bounds : Bounds} {next : List Nat}
    (hw : mem.Within g) (hn : g.nodes[node]? = some ⟨.repetition bounds exit, next⟩)
    (hc : count = 0 ∨ bounds.mayLoop count) : (mem.setCount node count).Within g := by
  intro i b e nx hi
  by_cases hin : i = node
  · subst hin
    rw [hn] at hi
    cases hi
    rw [mem.counts_setCount_self]
    refine hc.imp_right fun hl max hmax => ?_
    simpa [Bounds.mayLoop, Option.mem_def.1 hmax] using hl
  · rw [mem.counts_setCount_of_ne hin]
    exact hw i b e nx hi

theorem Move.within {p q : Place} {mem' : Memory} (h : Move g subject p mem q mem')
    (hw : mem.Within g) : mem'.Within g := by
  cases h with
  | loop hn _ _ hl => exact hw.setCount hn (.inr hl)
  | leave hn => exact hw.setCount hn (.inl rfl)
  | _ => exact hw

section

variable {b : Bounds} {count : Nat}

theorem min_countLimit_succ (hb : b.Fit) (hc : count = 0 ∨ ∀ max ∈ b.max, count < max) {high : Nat}
    (hh : high ∈ b.max) : min countLimit (count + 1) = count + 1 := by
  have hlimit : high ≤ countLimit := (hb.2 high hh).2
  have hpos : 1 ≤ countLimit := by decide
  rcases hc with rfl | hc
  · exact Nat.min_eq_right hpos
  · have hlt : count < high := hc high hh
    exact Nat.min_eq_right (by omega)

theorem exceeded_min (hb : b.Fit) (hc : count = 0 ∨ ∀ max ∈ b.max, count < max) :
    b.exceeded (min countLimit (count + 1)) = b.exceeded (count + 1) := by
  obtain ⟨low, _ | high⟩ := b
  · rfl
  · rw [min_countLimit_succ hb hc rfl]

theorem mayLoop_min (hb : b.Fit) (hc : count = 0 ∨ ∀ max ∈ b.max, count < max) :
    b.mayLoop (min countLimit (count + 1)) = b.mayLoop (count + 1) := by
  obtain ⟨low, _ | high⟩ := b
  · rfl
  · rw [min_countLimit_succ hb hc rfl]

theorem satisfied_min (hb : b.Fit) :
    b.satisfied (min countLimit (count + 1)) = b.satisfied (count + 1) := by
  have := hb.1
  rw [Bounds.satisfied, Bounds.satisfied, decide_eq_decide]
  omega

end

/-! ## Groups that are open -/

section

variable {p : Place}

/-- On the way to a place groups have been opened that are now to be closed one by one, and each
of them has an instance. -/
theorem Reaches.nested (hg : g.Fits) (h : Reaches g subject p mem) :
    ∃ opened, (∀ steps, Balanced g.nodes steps p.node opened) ∧
      ∀ k ∈ opened, mem.captures k ≠ [] := by
  induction h with
  | start => exact ⟨[], hg.balanced, by simp⟩
  | @move p q mem mem' _ hm ih =>
    obtain ⟨opened, hb, hc⟩ := ih
    have hk := fun k hk => hm.keeps k (hc k hk)
    -- what is open behind the node does not depend on the number of steps
    have hstep : ∀ {nd : Node} {after : List Nat}, g.nodes[p.node]? = some nd →
        nd.kind.nest opened = some after → q.node ∈ nd.onto →
        ∀ steps, Balanced g.nodes steps q.node after := by
      intro nd after hn ha hq steps
      obtain ⟨after', ha', hm⟩ := hb (steps + 1) nd hn
      rw [ha] at ha'
      cases ha'
      exact hm q.node hq
    cases hm with
    | read hn hmem | join hn hmem | copy hn hmem | anchor hn hmem =>
      exact ⟨opened, hstep hn rfl hmem, hk⟩
    | loop hn hmem => exact ⟨opened, hstep hn rfl (List.mem_append_left _ hmem), hk⟩
    | leave hn => exact ⟨opened, hstep hn rfl (by simp [Node.onto]), hk⟩
    | @openGroup node offset next m group _ hn hmem =>
      refine ⟨group :: opened, hstep hn rfl hmem, fun k hk' => ?_⟩
      rcases List.mem_cons.1 hk' with rfl | hk'
      · simp [Memory.openGroup]
      · exact hk k hk'
    | @closeGroup node offset next m group _ hn hmem =>
      obtain ⟨after, ha, -⟩ := hb 1 _ hn
      refine ⟨after, hstep hn ha hmem, fun k hk' => hk k ?_⟩
      cases opened with
      | nil => cases ha
      | cons i rest =>
        simp only [NodeKind.nest] at ha
        split at ha <;> cases ha
        exact List.mem_cons_of_mem i hk'

theorem Reaches.captures_of_groupClose (hg : g.Fits) (h : Reaches g subject p mem) {k : Nat}
    {next : List Nat} (hn : g.nodes[p.node]? = some ⟨.groupClose k, next⟩) :
    mem.captures k ≠ [] := by
  obtain ⟨opened, hb, hc⟩ := h.nested hg
  obtain ⟨after, ha, -⟩ := hb 1 _ hn
  cases opened with
  | nil => cases ha
  | cons i rest =>
    simp only [NodeKind.nest] at ha
    split at ha
    · next hik => exact hc k (by rw [hik]; exact List.mem_cons_self)
    · simp at ha

theorem Reaches.captures_of_terminal (hg : g.Fits) (h : Reaches g subject p mem)
    {next : List Nat} (hn : g.nodes[p.node]? = some ⟨.terminal, next⟩) :
    mem.captures 0 ≠ [] := by
  obtain ⟨opened, hb, hc⟩ := h.nested hg
  obtain ⟨after, ha, -⟩ := hb 1 _ hn
  simp only [NodeKind.nest] at ha
  split at ha
  · next ho => exact hc 0 (by rw [ho]; exact List.mem_cons_self)
  · simp at ha

end

/-! ## Marks -/

/-- The place is marked. -/
def State.Marked (st : State) (p : Place) : Prop :=
  ∃ l, st.marks[p.node]? = some l ∧ p.offset ∈ l

/-- For every node there are the marks of a path that has got to `offset`, the latest first. -/
structure State.Trails (g : Graph) (st : State) (offset : Nat) : Prop where
  size : st.marks.size = g.size
  descending : ∀ (n : Nat) (l : List Nat), st.marks[n]? = some l →
    l.Pairwise (· > ·) ∧ ∀ o ∈ l, o ≤ offset

theorem State.trails_initial (g : Graph) : (State.initial g.size g.groups).Trails g 0 := by
  refine ⟨by simp [State.initial], fun n l h => ?_⟩
  rw [State.initial, Array.getElem?_replicate] at h
  split at h <;> cases h
  simp

theorem State.not_marked_initial (g : Graph) (p : Place) :
    ¬ (State.initial g.size g.groups).Marked p := by
  rintro ⟨l, h, ho⟩
  rw [State.initial, Array.getElem?_replicate] at h
  split at h <;> cases h
  cases ho

theorem State.Trails.congr {n : Nat} (h : st.Trails g n) (hm : st'.marks = st.marks) :
    st'.Trails g n := ⟨by rw [hm]; exact h.size, by rw [hm]; exact h.descending⟩

theorem State.Trails.mono {m n : Nat} (h : st.Trails g m) (hmn : m ≤ n) : st.Trails g n :=
  ⟨h.size, fun i l hl => ⟨(h.descending i l hl).1,
    fun o ho => Nat.le_trans ((h.descending i l hl).2 o ho) hmn⟩⟩

theorem State.Trails.isFresh_iff {offset n : Nat} {l : List Nat} (h : st.Trails g offset)
    (hl : st.marks[n]? = some l) : State.isFresh offset l = true ↔ offset ∉ l := by
  obtain ⟨hp, hle⟩ := h.descending n l hl
  cases l with
  | nil => simp [State.isFresh]
  | cons o rest =>
    have ho := hle o List.mem_cons_self
    simp only [State.isFresh, List.head?_cons, Option.all_some, decide_eq_true_eq, List.mem_cons,
      not_or]
    constructor
    · intro hlt
      refine ⟨Nat.ne_of_gt hlt, fun hm => ?_⟩
      have := List.rel_of_pairwise_cons hp hm
      omega
    · rintro ⟨hne, -⟩; omega

theorem State.mark?_eq_none {p : Place} (h : st.Trails g p.offset) (hm : st.Marked p) :
    st.mark? p.node p.offset = none := by
  obtain ⟨l, hl, ho⟩ := hm
  have hf : ¬ State.isFresh p.offset l := fun hf => (h.isFresh_iff hl).1 hf ho
  rw [State.mark?, hl, Option.any_some, if_neg hf]

theorem State.exists_mark? {p : Place} (h : st.Trails g p.offset) (hn : p.node < g.size)
    (hm : ¬ st.Marked p) : ∃ st', st.mark? p.node p.offset = some st' ∧
      st'.captures = st.captures ∧ st'.counts = st.counts ∧ st'.Trails g p.offset ∧
      ∀ q, st'.Marked q ↔ q = p ∨ st.Marked q := by
  obtain ⟨l, hl⟩ : ∃ l, st.marks[p.node]? = some l :=
    ⟨_, Array.getElem?_eq_getElem (by rw [h.size]; exact hn)⟩
  have ho : p.offset ∉ l := fun ho => hm ⟨l, hl, ho⟩
  refine ⟨{ st with marks := st.marks.modify p.node (p.offset :: ·) },
    State.mark?_eq_some.2 ⟨⟨l, hl, (h.isFresh_iff hl).2 ho⟩, rfl⟩, rfl, rfl,
    ⟨by simp [h.size], fun i l' hl' => ?_⟩, fun q => ?_⟩
  · rw [Array.getElem?_modify] at hl'
    split at hl'
    · next hi =>
      subst hi
      rw [hl] at hl'
      cases hl'
      obtain ⟨hp, hle⟩ := h.descending _ l hl
      refine ⟨List.pairwise_cons.2 ⟨fun o hm => ?_, hp⟩, fun o hm => ?_⟩
      · exact Nat.lt_of_le_of_ne (hle o hm) fun he => ho (he ▸ hm)
      · rcases List.mem_cons.1 hm with rfl | hm
        · exact Nat.le_refl _
        · exact hle o hm
    · exact h.descending i l' hl'
  · obtain ⟨node, offset⟩ := q
    obtain ⟨pnode, poffset⟩ := p
    simp only [State.Marked, Place.mk.injEq] at hl ⊢
    rw [Array.getElem?_modify]
    by_cases hi : pnode = node
    · subst hi
      rw [if_pos rfl, hl]
      simp
    · rw [if_neg hi]
      simp [Ne.symm hi]

/-! ## The search goes the ways of the path -/

/-- What the search knows when it is about to come to a place. -/
structure Tracks (g : Graph) (subject : Array Char) (st : State) (p : Place) (mem : Memory) :
    Prop where
  reaches : Reaches g subject p mem
  mirrors : Mirrors g st mem
  within : mem.Within g
  trails : st.Trails g p.offset

theorem tracks_initial (g : Graph) (subject : Array Char) :
    Tracks g subject (.initial g.size g.groups) ⟨g.start, 0⟩ .empty :=
  ⟨.start, mirrors_initial g, Memory.within_empty g, State.trails_initial g⟩

/-- A visit is about to come to the place, having captured and counted what the memory holds. -/
structure Visit.StandsFor (g : Graph) (w : Visit) (x : Place × Memory) : Prop where
  place : (⟨w.node, w.offset⟩ : Place) = x.1
  mirrors : Mirrors g w.state x.2

theorem standsFor_visits (h : Mirrors g st mem) (next : List Nat) (offset : Nat) :
    List.Forall₂ (Visit.StandsFor g) (visits next offset st) (places next offset mem) := by
  induction next with
  | nil => exact .nil
  | cons n rest ih => exact .cons ⟨rfl, h⟩ ih

/-- What a node leads to are the moves from its place, in the same order. -/
theorem Node.onward_standsFor (hg : g.Fits) {p : Place} {nd : Node}
    (hr : Reaches g subject p mem) (hn : g.nodes[p.node]? = some nd) (hk : nd.kind ≠ .terminal)
    (hw : mem.Within g) (h : Mirrors g st mem) : ∃ ws,
      nd.onward subject p.node p.offset st = .ways ws ∧
        List.Forall₂ (Visit.StandsFor g) ws (moves g subject p mem) := by
  obtain ⟨node, offset⟩ := p
  obtain ⟨kind, next⟩ := nd
  have hfit := hg.kinds node _ hn
  have hsize : node < g.size := (Array.getElem?_eq_some_iff.1 hn).1
  cases kind with
  | test t =>
    refine ⟨_, rfl, ?_⟩
    rw [moves_test hn]
    split
    · exact standsFor_visits h _ _
    · exact .nil
  | join =>
    refine ⟨_, rfl, ?_⟩
    rw [moves_join hn]
    exact standsFor_visits h _ _
  | groupOpen k =>
    refine ⟨_, rfl, ?_⟩
    rw [moves_groupOpen hn]
    exact standsFor_visits (h.openGroup k offset) _ _
  | groupClose k =>
    obtain ⟨stop, st', hc, h'⟩ := h.closeGroup hfit (hr.captures_of_groupClose hg hn) offset
    refine ⟨visits next offset st', by simp only [Node.onward, hc], ?_⟩
    rw [moves_groupClose hn]
    exact standsFor_visits h' _ _
  | terminal => exact absurd rfl hk
  | backref k =>
    refine ⟨_, rfl, ?_⟩
    rw [moves_backref hn, h.copyEnd? hfit]
    cases (mem.latest k).copyEnd? subject offset with
    | none => exact .nil
    | some stop => exact standsFor_visits h _ _
  | repetition bounds exit =>
    refine ⟨_, rfl, ?_⟩
    have hcount : min countLimit (st.count node + 1) = min countLimit (mem.counts node + 1) := by
      rw [h.count hsize]; omega
    have hb := hw node bounds exit next hn
    rw [moves_repetition hn, hcount, exceeded_min hfit hb, mayLoop_min hfit hb,
      satisfied_min hfit]
    have hloop := h.setCount node (mem.counts node + 1)
    split
    · exact .nil
    · apply List.rel_append
      · split
        · exact standsFor_visits hloop _ _
        · exact .nil
      · split
        · refine .cons ⟨rfl, ?_⟩ .nil
          have := hloop.setCount node 0
          simpa [Memory.setCount] using this
        · exact .nil
  | anchor a =>
    refine ⟨_, rfl, ?_⟩
    rw [moves_anchor hn]
    split
    · exact standsFor_visits h _ _
    · exact .nil

/-- A visit that has left a place for the next, where it goes by the memory it stands for. -/
structure Visit.Follows (g : Graph) (subject : Array Char) (st : State) (p : Place) (w : Visit)
    (x : Place × Memory) : Prop where
  place : (⟨w.node, w.offset⟩ : Place) = x.1
  tracks : Tracks g subject w.state x.1 x.2
  marked : ∀ q, w.state.Marked q ↔ q = p ∨ st.Marked q

section

variable {p : Place} (hg : g.Fits) (h : Tracks g subject st p mem)

include h in
theorem onward_of_marked (hm : st.Marked p) :
    Visit.onward g subject ⟨p.node, p.offset, st⟩ = .ways [] := by
  unfold Visit.onward
  split
  · rfl
  · split
    · rw [State.mark?_eq_none h.trails hm]
    · rfl

include hg h in
theorem onward_of_terminal (hp : p = ⟨g.terminal, subject.size⟩) (hm : ¬ st.Marked p) :
    ∃ st', Visit.onward g subject ⟨p.node, p.offset, st⟩ = .arrived st' ∧
      Mirrors g st' (mem.closeGroup 0 subject.size) := by
  have ht := hg.nodes_terminal
  have hsize : g.terminal < g.size := (Array.getElem?_eq_some_iff.1 ht).1
  subst hp
  obtain ⟨st', hst, hc, hn, -, -⟩ := State.exists_mark? h.trails hsize hm
  obtain ⟨stop, st'', hclose, h'⟩ := (h.mirrors.congr hc hn).closeGroup (Nat.zero_le _)
    (h.reaches.captures_of_terminal hg ht) subject.size
  refine ⟨st'', ?_, h'⟩
  simp only [Visit.onward, ht, if_pos (Nat.le_refl _), hst, Node.onward, if_true, hclose]

include hg h in
/-- **The search tries the moves of a place in their order.** -/
theorem onward_of_tracks (hp : p ≠ ⟨g.terminal, subject.size⟩) (hm : ¬ st.Marked p) :
    ∃ ws, Visit.onward g subject ⟨p.node, p.offset, st⟩ = .ways ws ∧
      List.Forall₂ (Visit.Follows g subject st p) ws (moves g subject p mem) := by
  cases hn : g.nodes[p.node]? with
  | none =>
    refine ⟨[], by simp only [Visit.onward, hn], ?_⟩
    rw [moves, hn]
    exact .nil
  | some nd =>
  have hsize : p.node < g.size := (Array.getElem?_eq_some_iff.1 hn).1
  obtain ⟨st', hst, hc, hcn, htr, hmk⟩ := State.exists_mark? h.trails hsize hm
  have hon : Visit.onward g subject ⟨p.node, p.offset, st⟩ =
      nd.onward subject p.node p.offset st' := by
    simp only [Visit.onward, hn, if_pos h.reaches.offset_le, hst]
  by_cases hk : nd.kind = .terminal
  · -- the terminal before the end of the subject
    have hnode := hg.terminal p.node nd hn hk
    have hoff : p.offset ≠ subject.size := fun he => hp (by rw [← hnode, ← he])
    obtain ⟨kind, next⟩ := nd
    cases hk
    refine ⟨[], by rw [hon]; simp only [Node.onward, if_neg hoff], ?_⟩
    simp only [moves, hn]
    exact .nil
  · obtain ⟨ws, hws, hf⟩ := Node.onward_standsFor hg h.reaches hn hk h.within
      (h.mirrors.congr hc hcn)
    refine ⟨ws, hon.trans hws, ?_⟩
    have hmarks := Node.marks_of_onward hws
    -- each way leads on to where the tracks go on as well
    have hfollow : ∀ w ∈ ws, ∀ x ∈ moves g subject p mem, w.StandsFor g x →
        w.Follows g subject st p x := by
      intro w hw x hx hs
      have hmove : Move g subject p mem x.1 x.2 := mem_moves.1 hx
      have hm := hmarks w hw
      refine ⟨hs.place, ⟨h.reaches.move hmove, hs.mirrors, hmove.within h.within, ?_⟩, fun q => ?_⟩
      · exact (htr.congr hm).mono hmove.offset_le
      · rw [State.Marked, hm]
        exact hmk q
    obtain ⟨hlen, hzip⟩ := List.forall₂_iff_zip.1 hf
    refine List.forall₂_iff_zip.2 ⟨hlen, fun {w x} hwx => ?_⟩
    obtain ⟨hw, hx⟩ := List.of_mem_zip hwx
    exact hfollow w hw x hx (hzip hwx)

end

end

end PatternGraph
