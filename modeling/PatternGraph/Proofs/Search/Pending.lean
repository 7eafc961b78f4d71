import PatternGraph.Proofs.Search.Instances
import PatternGraph.Proofs.Search.Mirror
import PatternGraph.Proofs.Search.Turns

/-!
# What is still to be tried

Whatever is on the stack of a search belongs to ways from the start. A frame for work stands for
visits with which such a way goes on, in the state in which the frame will be taken off; a frame
that takes a change back finds what it changes.

* `Passes`: a way from the start, with the places that it has passed;
* `Visit.Sound`: a visit is the next on a way, and the places of the way are those that are marked;
* **`Visit.Sound.onward`**: and so are the visits that it leads to;
* `trail`: the places whose marks a stack takes back, the way that has been gone below a frame;
* `Stacked`: all frames of a stack are sound, **`Stacked.goes`**: turn after turn;
* **`stacked_of_arises`**: on the stacks that a search comes to.
-/

namespace PatternGraph

/-! ## Ways from the start -/

/-- A way from the start that has passed these places, the latest first, and has come to another. -/
inductive Passes (g : Graph) (subject : Array Char) : List Place → Place → Memory → Prop
  | start : Passes g subject [] ⟨g.start, 0⟩ .empty
  | move {passed : List Place} {p q : Place} {mem mem' : Memory} :
    Passes g subject passed p mem → Move g subject p mem q mem' →
    Passes g subject (p :: passed) q mem'

section

variable {g : Graph} {subject : Array Char} {passed : List Place} {p : Place} {mem : Memory}
  {k : Nat}

theorem Memory.captures_closeGroup_ne_nil_iff {j offset : Nat} :
    (mem.closeGroup j offset).captures k ≠ [] ↔ mem.captures k ≠ [] := by
  refine ⟨fun h hnil => h ?_, Memory.keeps_closeGroup j offset k⟩
  by_cases hj : k = j
  · subst hj
    show Function.update mem.captures k (State.setStop (some offset) (mem.captures k)) k = []
    rw [Function.update_self, hnil]
    rfl
  · rw [Memory.captures_closeGroup_of_ne hj, hnil]

theorem Passes.reaches (h : Passes g subject passed p mem) : Reaches g subject p mem := by
  induction h with
  | start => exact .start
  | move _ hm ih => exact ih.move hm

theorem Passes.path (h : Passes g subject passed p mem) {path : List Place}
    (hp : Path g subject p mem path) :
    Path g subject ⟨g.start, 0⟩ .empty (passed.reverse ++ path) := by
  induction h generalizing path with
  | start => exact hp
  | @move passed p _ _ _ _ hm ih =>
    rw [List.reverse_cons, List.append_assoc]
    exact ih (.move hm hp)

/-- **A group has an instance if the way has passed the node that opens it.** -/
theorem Passes.captures_ne_nil_iff (h : Passes g subject passed p mem) : mem.captures k ≠ [] ↔
    ∃ q ∈ passed, ∃ next, g.nodes[q.node]? = some ⟨.groupOpen k, next⟩ := by
  induction h with
  | start => simp [Memory.empty]
  | @move passed p q mem mem' _ hm ih =>
    rw [List.exists_mem_cons_iff, ← ih]
    -- a node that opens no group adds nothing
    have hother : ∀ {kind : NodeKind} {next : List Nat},
        g.nodes[p.node]? = some ⟨kind, next⟩ → kind ≠ .groupOpen k →
        ¬ ∃ next, g.nodes[p.node]? = some ⟨.groupOpen k, next⟩ := by
      rintro kind next hn hk ⟨next', hn'⟩
      rw [hn] at hn'
      cases hn'
      exact hk rfl
    cases hm with
    | read hn | join hn | copy hn | anchor hn => rw [or_iff_right (hother hn (by simp))]
    | loop hn | leave hn =>
      rw [or_iff_right (hother hn (by simp))]
      rfl
    | @openGroup _ _ _ _ j _ hn =>
      by_cases hj : k = j
      · subst hj
        rw [Memory.captures_openGroup_self]
        exact iff_of_true (List.cons_ne_nil _ _) (.inl ⟨_, hn⟩)
      · rw [Memory.captures_openGroup_of_ne hj,
          or_iff_right (hother hn fun he => hj (NodeKind.groupOpen.inj he).symm)]
    | @closeGroup _ offset _ _ j _ hn =>
      rw [or_iff_right (hother hn (by simp)), Memory.captures_closeGroup_ne_nil_iff]

end

/-! ## Visits on a way -/

/-- The visit is the next on a way from the start that has passed these places. What has been
captured and counted on the way is in the state, and its places are those that are marked. -/
def Visit.Sound (g : Graph) (subject : Array Char) (passed : List Place) (v : Visit) : Prop :=
  ∃ mem, Passes g subject passed ⟨v.node, v.offset⟩ mem ∧
    Tracks g subject v.state ⟨v.node, v.offset⟩ mem ∧ ∀ q, v.state.Marked q ↔ q ∈ passed

section

variable {g : Graph} {subject : Array Char} {passed : List Place} {v : Visit}

theorem sound_start (g : Graph) (subject : Array Char) :
    Visit.Sound g subject [] ⟨g.start, 0, .initial g.size g.groups⟩ :=
  ⟨.empty, .start, tracks_initial g subject, fun q =>
    iff_of_false (State.not_marked_initial g q) List.not_mem_nil⟩

theorem exists_mem_of_forall₂ {α β : Type} {R : α → β → Prop} {as : List α} {bs : List β}
    (h : List.Forall₂ R as bs) {a : α} (ha : a ∈ as) : ∃ b ∈ bs, R a b := by
  induction h with
  | nil => cases ha
  | cons hab _ ih =>
    rcases List.mem_cons.1 ha with rfl | ha
    · exact ⟨_, List.mem_cons_self, hab⟩
    · obtain ⟨b, hb, hr⟩ := ih ha
      exact ⟨b, List.mem_cons_of_mem _ hb, hr⟩

/-- **What a visit leads to is next on the way as well.** -/
theorem Visit.Sound.onward (hg : g.Fits) (h : v.Sound g subject passed) {ws : List Visit}
    (ho : v.onward g subject = .ways ws) :
    ∀ w ∈ ws, w.Sound g subject (⟨v.node, v.offset⟩ :: passed) := by
  obtain ⟨mem, hpasses, htracks, hmarked⟩ := h
  intro w hw
  by_cases hm : v.state.Marked ⟨v.node, v.offset⟩
  · obtain rfl : [] = ws := Onward.ways.inj ((onward_of_marked htracks hm).symm.trans ho)
    cases hw
  by_cases hp : (⟨v.node, v.offset⟩ : Place) = ⟨g.terminal, subject.size⟩
  · obtain ⟨st, harrived, -⟩ := onward_of_terminal hg htracks hp hm
    cases harrived.symm.trans ho
  obtain ⟨ws', ho', hf⟩ := onward_of_tracks hg htracks hp hm
  obtain rfl : ws' = ws := Onward.ways.inj (ho'.symm.trans ho)
  obtain ⟨⟨q, mem'⟩, hx, hplace, htracks', hmarked'⟩ := exists_mem_of_forall₂ hf hw
  simp only at hplace htracks'
  rw [← hplace] at hx htracks'
  refine ⟨mem', hpasses.move (mem_moves.1 hx), htracks', fun q => ?_⟩
  rw [hmarked' q, hmarked q, List.mem_cons]

theorem Visit.onward_eq {n : Node} {marked : State} (hn : g.nodes[v.node]? = some n)
    (ho : v.offset ≤ subject.size) (hm : v.state.mark? v.node v.offset = some marked) :
    v.onward g subject = n.onward subject v.node v.offset marked := by
  simp only [Visit.onward, hn, if_pos ho, hm]

theorem State.eq_of_mark? {st marked : State} {node offset : Nat}
    (h : st.mark? node offset = some marked) :
    marked.captures = st.captures ∧ marked.counts = st.counts := by
  obtain ⟨-, rfl⟩ := State.mark?_eq_some.1 h
  exact ⟨rfl, rfl⟩

end

/-! ## Frames -/

/-- The places whose marks the stack takes back, the latest first. -/
def trail : List Frame → List Place
  | [] => []
  | .undo (.unmark node offset) :: stack => ⟨node, offset⟩ :: trail stack
  | _ :: stack => trail stack

theorem trail_work {stack : List Frame} : ∀ {work : List Frame}, (∀ f ∈ work, f.IsWork) →
    trail (work ++ stack) = trail stack
  | [], _ => rfl
  | f :: work, hw => by
    have hrest : trail (work ++ stack) = trail stack :=
      trail_work fun f hf => hw f (List.mem_cons_of_mem _ hf)
    have hf := hw f List.mem_cons_self
    match f, hf with
    | .enter .., _ | .resume .., _ | .leave .., _ => exact hrest

/-- The changes that a node makes once it has been marked are no marks. -/
theorem NodeKind.Changes.trail_eq {node offset : Nat} {kind : NodeKind} {st st' : State} {u : Undo}
    (h : kind.Changes node offset st u st') (stack : List Frame) :
    trail (.undo u :: stack) = trail stack := by
  cases h <;> rfl

/-- What the change is to be taken back from is there, and no span would end before it begins. -/
def Undo.Sound (st : State) : Undo → Prop
  | .unmark _ _ => True
  | .dropSpan group => group < st.captures.size
  | .restoreStop group stop => group < st.captures.size ∧
    ∀ s, st.latest? group = some s → ∀ a ∈ s.start, ∀ b ∈ stop, a ≤ b
  | .restoreCount node _ => node < st.counts.size

/-- The frame says what is to be tried behind a node of the graph, and its visits are the next on
the way that has passed these places. -/
def Frame.Sound (g : Graph) (subject : Array Char) (passed : List Place) (st : State) (f : Frame) :
    Prop :=
  (∃ node n, g.nodes[node]? = some n ∧ f.IsFor node n) ∧ ∀ v ∈ f.visits st, v.Sound g subject passed

/-- Every frame of the stack is sound in the state in which it will be taken off, behind the places
whose marks are taken back below it. -/
def Stacked (g : Graph) (subject : Array Char) : State → List Frame → Prop
  | _, [] => True
  | st, .undo u :: stack => u.Sound st ∧ Stacked g subject (st.undo u) stack
  | st, f :: stack => f.Sound g subject (trail stack) st ∧ Stacked g subject st stack

section

variable {g : Graph} {subject : Array Char} {st : State} {stack : List Frame} {m m' : Machine}

theorem stacked_work {node : Nat} {n : Node} (hn : g.nodes[node]? = some n)
    (h : Stacked g subject st stack) : ∀ {work : List Frame}, (∀ f ∈ work, f.IsFor node n) →
      (∀ v ∈ work.flatMap (Frame.visits st), v.Sound g subject (trail stack)) →
      Stacked g subject st (work ++ stack)
  | [], _, _ => h
  | f :: work, hw, hv => by
    have hf := hw f List.mem_cons_self
    rw [List.flatMap_cons] at hv
    have hrest := stacked_work hn h (fun f hf => hw f (List.mem_cons_of_mem _ hf))
      fun v hv' => hv v (List.mem_append_right _ hv')
    have htrail : trail (work ++ stack) = trail stack :=
      trail_work fun f hf => (hw f (List.mem_cons_of_mem _ hf)).isWork
    have hsound : f.Sound g subject (trail (work ++ stack)) st :=
      ⟨⟨node, n, hn, hf⟩, fun v hv' => htrail ▸ hv v (List.mem_append_left _ hv')⟩
    match f, hf with
    | .enter _ _, _ | .resume _ _, _ | .leave _ _ _, _ => exact ⟨hsound, hrest⟩

/-- **A change that a node makes can be taken back soundly.** -/
theorem NodeKind.Changes.sound (hw : g.WellFormed) (hg : g.Fits) {p : Place} {mem : Memory}
    {n : Node} {marked st' : State} {u : Undo} (h : n.kind.Changes p.node p.offset marked u st')
    (hn : g.nodes[p.node]? = some n) (hr : Reaches g subject p mem) (hm : Mirrors g marked mem) :
    u.Sound st' := by
  obtain ⟨opened, hi⟩ := hr.instances hw hg
  have hfit := hg.kinds p.node n hn
  have hsize : ∀ k ≤ g.groups, k < marked.captures.size := fun k hk =>
    (Array.getElem?_eq_some_iff.1 (hm.captures k hk)).1
  -- an instance that has only begun had no end
  have hclose : ∀ {k : Nat} {stop : Option Nat}, k ≤ g.groups →
      (∃ start rest, mem.captures k = .startingAt start :: rest ∧ start ≤ p.offset ∧
        Settled start rest) →
      marked.closeGroup? k p.offset = some (stop, st') → (Undo.restoreStop k stop).Sound st' := by
    rintro k stop hk ⟨start, rest, he, -, -⟩ hc
    obtain ⟨s, hs, rfl, rfl⟩ := State.closeGroup?_eq_some.1 hc
    rw [hm.latest? hk, he] at hs
    cases hs
    refine ⟨by rw [Array.size_modify]; exact hsize k hk, fun s _ a _ b hb => ?_⟩
    cases hb
  obtain ⟨kind, next⟩ := n
  cases h with
  | openGroup k =>
    show k < (marked.captures.modify k _).size
    rw [Array.size_modify]
    exact hsize k hfit
  | closeGroup hc => exact hclose hfit (hi.unfinished hn) hc
  | terminal hc =>
    obtain rfl := hi.eq_singleton hn
    exact hclose (Nat.zero_le _) (hi.latest 0 (List.mem_singleton.2 rfl)) hc
  | count bounds exit count =>
    show p.node < (marked.counts.setIfInBounds p.node count).size
    rw [Array.size_setIfInBounds]
    exact (Array.getElem?_eq_some_iff.1
      (hm.counts p.node (Array.getElem?_eq_some_iff.1 hn).1)).1

/-- **A turn keeps the frames sound.** -/
theorem Stacked.goes (hw : g.WellFormed) (hg : g.Fits) (h : Stacked g subject m.state m.stack)
    (hgoes : m.Goes g subject m') : Stacked g subject m'.state m'.stack := by
  cases hgoes with
  | undo st u below => exact h.2
  | refused st node offset below => exact h.2
  | resume st next offset below =>
    obtain ⟨⟨⟨node, n, hn, hfor⟩, hv⟩, hbelow⟩ := h
    exact stacked_work hn hbelow (isFor_of_follow hfor) (by rw [visits_follow]; exact hv)
  | leave st node exit offset below =>
    obtain ⟨⟨⟨v, n, hn, rfl⟩, hv⟩, hbelow⟩ := h
    have hexit : Visit.Sound g subject (trail below) ⟨exit, offset, st.setCount node 0⟩ :=
      hv _ (List.mem_singleton.2 rfl)
    refine ⟨⟨⟨node, n, hn, trivial⟩, fun w hw => ?_⟩, ?_, ?_⟩
    · rw [List.mem_singleton.1 hw]
      exact hexit
    · obtain ⟨mem, -, htracks, -⟩ := hexit
      exact (Array.getElem?_eq_some_iff.1
        (htracks.mirrors.counts node (Array.getElem?_eq_some_iff.1 hn).1)).1
    · rw [State.undo_setCount]
      exact hbelow
  | @entered st marked node offset n work below hn ho hmark hfor honward =>
    obtain ⟨hsound, hbelow⟩ := h
    have hv : Visit.Sound g subject (trail below) ⟨node, offset, st⟩ :=
      hsound.2 _ (List.mem_singleton.2 rfl)
    have hways := hv.onward hg ((Visit.onward_eq hn ho hmark).trans honward)
    have hundo : Stacked g subject marked (.undo (.unmark node offset) :: below) := by
      refine ⟨trivial, ?_⟩
      rw [State.undo_mark? hmark]
      exact hbelow
    exact stacked_work hn hundo hfor hways
  | @changed st marked st' node offset n u work below hn ho hmark hc hfor honward =>
    obtain ⟨hsound, hbelow⟩ := h
    have hv : Visit.Sound g subject (trail below) ⟨node, offset, st⟩ :=
      hsound.2 _ (List.mem_singleton.2 rfl)
    have hways := hv.onward hg ((Visit.onward_eq hn ho hmark).trans honward)
    obtain ⟨mem, hpasses, htracks, -⟩ := hv
    obtain ⟨hcaptures, hcounts⟩ := State.eq_of_mark? hmark
    have hundo : Stacked g subject st' (.undo u :: .undo (.unmark node offset) :: below) := by
      refine ⟨NodeKind.Changes.sound (p := ⟨node, offset⟩) hw hg hc hn hpasses.reaches
        (htracks.mirrors.congr hcaptures hcounts), trivial, ?_⟩
      rw [hc.undo_eq, State.undo_mark? hmark]
      exact hbelow
    refine stacked_work hn hundo hfor fun w hw => ?_
    rw [hc.trail_eq]
    exact hways w hw

/-- **On every stack that a search comes to the frames are sound.** -/
theorem stacked_of_arises (hw : g.WellFormed) (hg : g.Fits) (h : m.Arises g subject) :
    Stacked g subject m.state m.stack := by
  induction h with
  | start =>
    refine ⟨⟨⟨g.terminal, _, hg.nodes_terminal, trivial⟩, fun v hv => ?_⟩, trivial⟩
    rw [List.mem_singleton.1 hv]
    exact sound_start g subject
  | turn _ ht ih => exact ih.goes hw hg (goes_of_turn ht)

end

end PatternGraph
