import PatternGraph.Proofs.Search.Descent

/-!
# The turns of a search

A search takes one turn after the other. A turn takes one frame off the stack; what it puts there
are frames for work, above frames that take back what it has changed.

* `Machine.start`, `Machine.Arises`: the machines that a search comes to;
* `Frame.IsFor`: a frame says what is to be tried behind a node, `Frame.visits`: which visits it
  stands for;
* `Machine.Goes`: all that a turn can do if the search goes on, **`goes_of_turn`**;
* `turn_ended`: the turns that end a search, `exists_ended`: a run has such a turn;
* `Machine.turns`: so many turns in a row, `turnLimit`;
* **`exists_turns_eq`**: after that many turns at most a search has ended, with what it answers.
-/

namespace PatternGraph

/-- Nothing done yet, and the start of the graph to be entered. -/
def Machine.start (g : Graph) : Machine := ⟨.initial g.size g.groups, [.enter g.start 0]⟩

/-- The machines that a search along the graph comes to before it ends. -/
inductive Machine.Arises (g : Graph) (subject : Array Char) : Machine → Prop
  | start : Arises g subject (.start g)
  | turn {m m' : Machine} : Arises g subject m → m.turn g subject = .going m' →
    Arises g subject m'

/-! ## What a turn can do -/

/-- The frame says what is to be tried. -/
def Frame.IsWork : Frame → Prop
  | .undo _ => False
  | _ => True

/-- The frame says what is to be tried behind the node. -/
def Frame.IsFor (node : Nat) (n : Node) : Frame → Prop
  | .enter _ _ => True
  | .resume next _ => next <:+ n.next
  | .leave v _ _ => v = node
  | .undo _ => False

/-- The visits that a frame for work stands for, if it is taken off in this state. -/
def Frame.visits (st : State) : Frame → List Visit
  | .enter node offset => [⟨node, offset, st⟩]
  | .resume next offset => PatternGraph.visits next offset st
  | .leave node exit offset => [⟨exit, offset, st.setCount node 0⟩]
  | .undo _ => []

/-- What a node of some kind changes once it has been marked, and how that is taken back. -/
inductive NodeKind.Changes (node offset : Nat) : NodeKind → State → Undo → State → Prop
  | openGroup (group : Nat) (st : State) :
    Changes node offset (.groupOpen group) st (.dropSpan group) (st.openGroup group offset)
  | closeGroup {group : Nat} {st st' : State} {stop : Option Nat} :
    st.closeGroup? group offset = some (stop, st') →
    Changes node offset (.groupClose group) st (.restoreStop group stop) st'
  | terminal {st st' : State} {stop : Option Nat} : st.closeGroup? 0 offset = some (stop, st') →
    Changes node offset .terminal st (.restoreStop 0 stop) st'
  | count (bounds : Bounds) (exit count : Nat) (st : State) :
    Changes node offset (.repetition bounds exit) st (.restoreCount node (st.count node))
      (st.setCount node count)

theorem NodeKind.Changes.undo_eq {node offset : Nat} {kind : NodeKind} {st st' : State} {u : Undo}
    (h : kind.Changes node offset st u st') : st'.undo u = st := by
  cases h with
  | openGroup group st => exact st.undo_openGroup group offset
  | closeGroup hc => exact State.undo_closeGroup? hc
  | terminal hc => exact State.undo_closeGroup? hc
  | count bounds exit count st => exact st.undo_setCount node count

/-- All that one turn can do. Where a node is entered, the work that is put on the stack stands for
what the visit leads to. -/
inductive Machine.Goes (g : Graph) (subject : Array Char) : Machine → Machine → Prop
  | undo (st : State) (u : Undo) (below : List Frame) :
    Goes g subject ⟨st, .undo u :: below⟩ ⟨st.undo u, below⟩
  | resume (st : State) (next : List Nat) (offset : Nat) (below : List Frame) :
    Goes g subject ⟨st, .resume next offset :: below⟩ ⟨st, follow next offset [] ++ below⟩
  | leave (st : State) (node exit offset : Nat) (below : List Frame) :
    Goes g subject ⟨st, .leave node exit offset :: below⟩
      ⟨st.setCount node 0,
        .enter exit offset :: .undo (.restoreCount node (st.count node)) :: below⟩
  | refused (st : State) (node offset : Nat) (below : List Frame) :
    Goes g subject ⟨st, .enter node offset :: below⟩ ⟨st, below⟩
  | entered {st marked : State} {node offset : Nat} {n : Node} {work : List Frame}
    (below : List Frame) : g.nodes[node]? = some n → offset ≤ subject.size →
    st.mark? node offset = some marked → (∀ f ∈ work, f.IsFor node n) →
    n.onward subject node offset marked = .ways (work.flatMap (Frame.visits marked)) →
    Goes g subject ⟨st, .enter node offset :: below⟩
      ⟨marked, work ++ .undo (.unmark node offset) :: below⟩
  | changed {st marked st' : State} {node offset : Nat} {n : Node} {u : Undo} {work : List Frame}
    (below : List Frame) : g.nodes[node]? = some n → offset ≤ subject.size →
    st.mark? node offset = some marked → n.kind.Changes node offset marked u st' →
    (∀ f ∈ work, f.IsFor node n) →
    n.onward subject node offset marked = .ways (work.flatMap (Frame.visits st')) →
    Goes g subject ⟨st, .enter node offset :: below⟩
      ⟨st', work ++ .undo u :: .undo (.unmark node offset) :: below⟩

section

variable {g : Graph} {subject : Array Char} {m m' : Machine} {st : State}

theorem follow_eq_append (next : List Nat) (offset : Nat) (stack : List Frame) :
    follow next offset stack = follow next offset [] ++ stack := by
  unfold follow
  split <;> rfl

theorem Frame.IsFor.isWork {f : Frame} {node : Nat} {n : Node} (h : f.IsFor node n) : f.IsWork := by
  cases f with
  | undo u => exact h
  | _ => trivial

/-- What is put on the stack for some of the successors of a node is to be tried behind it. -/
theorem isFor_of_follow {next : List Nat} {offset node : Nat} {n : Node} (h : next <:+ n.next) :
    ∀ f ∈ follow next offset [], f.IsFor node n := by
  intro f hf
  unfold follow at hf
  split at hf
  · cases hf
  · rw [List.mem_singleton.1 hf]; trivial
  · rcases List.mem_cons.1 hf with rfl | hf
    · trivial
    · rw [List.mem_singleton.1 hf]
      exact (List.suffix_cons _ _).trans h

theorem isWork_of_follow {next : List Nat} {offset : Nat} (f : Frame)
    (hf : f ∈ follow next offset []) : f.IsWork :=
  (isFor_of_follow (List.suffix_refl next) f hf : f.IsFor 0 ⟨.join, next⟩).isWork

theorem visits_follow (next : List Nat) (offset : Nat) (st : State) :
    (follow next offset []).flatMap (Frame.visits st) = visits next offset st := by
  unfold follow
  split <;> simp [Frame.visits, visits]

theorem goes_of_act {st marked : State} {node offset : Nat} {n : Node} {below : List Frame}
    (hn : g.nodes[node]? = some n) (ho : offset ≤ subject.size)
    (hm : st.mark? node offset = some marked)
    (h : act subject node n offset ⟨marked, .undo (.unmark node offset) :: below⟩ = .going m') :
    Machine.Goes g subject ⟨st, .enter node offset :: below⟩ m' := by
  have hnone : ∀ f ∈ ([] : List Frame), f.IsFor node n := fun _ hf => (List.not_mem_nil hf).elim
  -- the node has changed nothing
  have hstop : n.onward subject node offset marked = .ways [] →
      Machine.Goes g subject ⟨st, .enter node offset :: below⟩
        ⟨marked, .undo (.unmark node offset) :: below⟩ := fun he =>
    (.entered below hn ho hm hnone he : Machine.Goes _ _ _ ⟨marked, [] ++ _⟩)
  have hfollow : ∀ offset', n.onward subject node offset marked =
      .ways (visits n.next offset' marked) →
      Machine.Goes g subject ⟨st, .enter node offset :: below⟩
        ⟨marked, follow n.next offset' (.undo (.unmark node offset) :: below)⟩ := by
    intro offset' he
    rw [follow_eq_append]
    exact .entered below hn ho hm (isFor_of_follow (List.suffix_refl _)) (by rw [visits_follow, he])
  -- the node has made a change
  have hchange : ∀ {u st'}, n.kind.Changes node offset marked u st' →
      n.onward subject node offset marked = .ways (visits n.next offset st') →
      Machine.Goes g subject ⟨st, .enter node offset :: below⟩
        ⟨st', follow n.next offset (.undo u :: .undo (.unmark node offset) :: below)⟩ := by
    intro u st' hc he
    rw [follow_eq_append]
    exact .changed below hn ho hm hc (isFor_of_follow (List.suffix_refl _))
      (by rw [visits_follow, he])
  obtain ⟨kind, next⟩ := n
  cases kind with
  | test t =>
    simp only [act, Node.onward] at h hstop hfollow
    split at h <;> cases h
    · next ht => exact hfollow _ (by rw [if_pos ht])
    · next ht => exact hstop (by rw [if_neg ht])
  | join =>
    cases h
    exact hfollow _ rfl
  | groupOpen group =>
    cases h
    exact hchange (.openGroup group marked) rfl
  | groupClose group =>
    simp only [act, Node.onward] at h hstop hchange
    split at h <;> cases h
    · next hc => exact hstop (by rw [hc])
    · next hc => exact hchange (.closeGroup hc) (by rw [hc])
  | terminal =>
    simp only [act, Node.onward] at h hstop
    split at h
    · next hc =>
      cases h
      refine hstop ?_
      rw [hc]
      split <;> rfl
    · next hc =>
      split at h <;> cases h
      next hne =>
      exact (.changed below hn ho hm (.terminal hc) hnone (if_neg hne) :
        Machine.Goes _ _ _ ⟨_, [] ++ _⟩)
  | backref group =>
    simp only [act, Node.onward] at h hstop hfollow
    split at h <;> cases h
    · next hc => exact hstop (by rw [hc])
    · next hc => exact hfollow _ (by rw [hc])
  | repetition bounds exit =>
    cases h
    dsimp only
    generalize hcount : min countLimit (marked.count node + 1) = count
    have hchanges : NodeKind.Changes node offset (.repetition bounds exit) marked
        (.restoreCount node (marked.count node)) (marked.setCount node count) :=
      .count bounds exit count marked
    have honward : ∀ work, (∀ f ∈ work, f.IsFor node ⟨.repetition bounds exit, next⟩) →
        Node.onward subject node ⟨.repetition bounds exit, next⟩ offset marked =
          .ways (work.flatMap (Frame.visits (marked.setCount node count))) →
        Machine.Goes g subject ⟨st, .enter node offset :: below⟩
          ⟨marked.setCount node count, work ++ .undo (.restoreCount node (marked.count node)) ::
            .undo (.unmark node offset) :: below⟩ := fun work hw he =>
      .changed below hn ho hm hchanges hw he
    simp only [Node.onward, hcount] at honward
    by_cases he : bounds.exceeded count
    · rw [if_pos he]
      exact honward [] hnone (by rw [if_pos he]; rfl)
    · rw [if_neg he]
      simp only [if_neg he] at honward
      -- one more round is tried first, and beneath it lies the way out
      have hstack : ∀ stack, (if bounds.mayLoop count then follow next offset
            (if bounds.satisfied count then .leave node exit offset :: stack else stack)
          else if bounds.satisfied count then .leave node exit offset :: stack else stack) =
          ((if bounds.mayLoop count then follow next offset [] else []) ++
            if bounds.satisfied count then [.leave node exit offset] else []) ++ stack := by
        intro stack
        rw [follow_eq_append]
        split <;> split <;> simp
      rw [hstack]
      refine honward _ (fun f hf => ?_) ?_
      · rcases List.mem_append.1 hf with hf | hf
        · split at hf
          · exact isFor_of_follow (List.suffix_refl next) f hf
          · exact hnone f hf
        · split at hf
          · rw [List.mem_singleton.1 hf]
            exact (rfl : node = node)
          · exact hnone f hf
      · rw [List.flatMap_append]
        congr 2
        · split
          · rw [visits_follow]
          · rfl
        · split <;> rfl
  | anchor a =>
    simp only [act, Node.onward] at h hstop hfollow
    split at h <;> cases h
    · next ha => exact hfollow _ (by rw [if_pos ha])
    · next ha => exact hstop (by rw [if_neg ha])

/-- **All that a turn can do**, if the search goes on after it. -/
theorem goes_of_turn (h : m.turn g subject = .going m') : m.Goes g subject m' := by
  obtain ⟨st, stack⟩ := m
  unfold Machine.turn at h
  dsimp only at h
  split at h
  · cases h
  · next node offset below =>
    unfold enter at h
    split at h
    · cases h; exact .refused st node offset below
    next n hn =>
    split at h
    · next ho =>
      split at h
      · cases h; exact .refused st node offset below
      · next hm => exact goes_of_act hn ho hm h
    · cases h; exact .refused st node offset below
  · next next offset below =>
    cases h
    rw [follow_eq_append]
    exact .resume st next offset below
  · cases h; exact .leave st _ _ _ _
  · cases h; exact .undo st _ _

theorem act_going_or_accepted (subject : Array Char) (node : Nat) (n : Node) (offset : Nat)
    (m : Machine) :
    (∃ m', act subject node n offset m = .going m') ∨ n.kind = .terminal ∧ offset = subject.size ∧
      ∃ stop st, m.state.closeGroup? 0 offset = some (stop, st) ∧
        act subject node n offset m = .accepted st := by
  obtain ⟨kind, next⟩ := n
  cases kind with
  | join | groupOpen | repetition => exact .inl ⟨_, rfl⟩
  | test | groupClose | backref | anchor =>
    simp only [act]
    split <;> exact .inl ⟨_, rfl⟩
  | terminal =>
    simp only [act]
    split
    · exact .inl ⟨_, rfl⟩
    next stop st hc =>
    split
    · next ho => exact .inr ⟨trivial, ho, stop, st, hc, rfl⟩
    · exact .inl ⟨_, rfl⟩

/-- Where a turn ends the search, nothing is left on the stack, or the terminal is entered at the
end of the subject and the whole match ends there. -/
theorem turn_ended (g : Graph) (subject : Array Char) (m : Machine) :
    (∃ m', m.turn g subject = .going m') ∨
    (m.stack = [] ∧ m.turn g subject = .exhausted m.state) ∨
    ∃ node n marked stop st below, m.stack = .enter node subject.size :: below ∧
      g.nodes[node]? = some n ∧ n.kind = .terminal ∧
      m.state.mark? node subject.size = some marked ∧
      marked.closeGroup? 0 subject.size = some (stop, st) ∧ m.turn g subject = .accepted st := by
  obtain ⟨st, stack⟩ := m
  match stack with
  | [] => exact .inr (.inl ⟨rfl, rfl⟩)
  | .resume next offset :: below => exact .inl ⟨_, rfl⟩
  | .leave node exit offset :: below => exact .inl ⟨_, rfl⟩
  | .undo u :: below => exact .inl ⟨_, rfl⟩
  | .enter node offset :: below =>
    simp only [Machine.turn, enter]
    split
    · exact .inl ⟨_, rfl⟩
    next n hn =>
    split
    · split
      · exact .inl ⟨_, rfl⟩
      next marked hm =>
      rcases act_going_or_accepted subject node n offset
        ⟨marked, .undo (.unmark node offset) :: below⟩ with h | ⟨hk, rfl, stop, st', hc, h⟩
      · exact .inl h
      · exact .inr (.inr ⟨node, n, marked, stop, st', below, rfl, hn, hk, hm, hc, h⟩)
    · exact .inl ⟨_, rfl⟩

end

theorem exists_ended {g : Graph} {subject : Array Char} {m : Machine} (ha : m.Arises g subject) :
    ∃ m' : Machine, m'.Arises g subject ∧
      (m'.stack = [] ∧ m'.turn g subject = .exhausted m'.state ∧
          m.run g subject = (false, m'.state) ∨
        ∃ st, m'.turn g subject = .accepted st ∧ m.run g subject = (true, st)) := by
  -- the induction is on the weight of the stack, which every turn makes lighter
  induction hw : m.weight g subject using Nat.strongRecOn generalizing m with
  | _ w ih =>
  subst hw
  rcases turn_ended g subject m with ⟨m', ht⟩ | ⟨hs, ht⟩ | ⟨_, _, _, _, st, _, _, _, _, _, _, ht⟩
  · rw [run_eq_result, ht]
    exact ih _ (weight_turn_lt ht) (ha.turn ht) rfl
  · exact ⟨m, ha, .inl ⟨hs, ht, by rw [run_eq_result, ht]; rfl⟩⟩
  · exact ⟨m, ha, .inr ⟨st, ht, by rw [run_eq_result, ht]; rfl⟩⟩

/-! ## Turn after turn -/

/-- So many turns are enough for a search in a subject of the given size. -/
def turnLimit (g : Graph) (size : Nat) : Nat :=
  cost (degree g.nodes.toList) (g.size * (size + 1)) + 1

/-- What so many turns in a row lead to. Once the search has ended, it stays so. -/
def Machine.turns (g : Graph) (subject : Array Char) : Nat → Machine → Turn
  | 0, m => .going m
  | n + 1, m =>
    match m.turn g subject with
    | .going m' => m'.turns g subject n
    | ended => ended

section

variable {g : Graph} {subject : Array Char}

theorem Machine.Arises.turns {n : Nat} {m m' : Machine} (h : m.Arises g subject)
    (hn : m.turns g subject n = .going m') : m'.Arises g subject := by
  induction n generalizing m with
  | zero => cases hn; exact h
  | succ n ih =>
    rw [Machine.turns] at hn
    split at hn
    · next ht => exact ih (h.turn ht) hn
    · next hne => exact absurd hn (hne m')

theorem turns_eq (n : Nat) (m : Machine) (h : m.weight g subject < n) :
    (∃ st, m.turns g subject n = .accepted st ∧ m.run g subject = (true, st)) ∨
      ∃ st, m.turns g subject n = .exhausted st ∧ m.run g subject = (false, st) := by
  induction n generalizing m with
  | zero => exact absurd h (Nat.not_lt_zero _)
  | succ n ih =>
    rw [run_eq_result, Machine.turns]
    cases ht : m.turn g subject with
    | going m' =>
      exact ih m' (Nat.lt_of_lt_of_le (weight_turn_lt ht) (Nat.le_of_lt_succ h))
    | accepted st => exact .inl ⟨st, rfl, rfl⟩
    | exhausted st => exact .inr ⟨st, rfl, rfl⟩

theorem room_initial (size nodes groups : Nat) :
    room size (State.initial nodes groups).marks = nodes * (size + 1) := by
  rw [room, State.initial, Array.toList_replicate]
  induction nodes with
  | zero => simp
  | succ n ih =>
    rw [List.replicate_succ, List.foldr_cons, ih, markRoom, Nat.add_one_mul, Nat.add_comm]

/-- **A search ends.** After finitely many turns, and at most as many as `turnLimit` says, it has
either arrived or tried everything, and this is what it answers. -/
theorem exists_turns_eq (g : Graph) (subject : Array Char) :
    ∃ n ≤ turnLimit g subject.size, ∃ st,
      (Machine.start g).turns g subject n = .accepted st ∧ search g subject = (true, st) ∨
      (Machine.start g).turns g subject n = .exhausted st ∧ search g subject = (false, st) := by
  have hweight : (Machine.start g).weight g subject < turnLimit g subject.size := by
    simp only [Machine.weight, Machine.start, weight, room_initial, turnLimit]
    exact Nat.lt_succ_self _
  refine ⟨_, Nat.le_refl _, ?_⟩
  rcases turns_eq _ _ hweight with ⟨st, h⟩ | ⟨st, h⟩
  · exact ⟨st, .inl h⟩
  · exact ⟨st, .inr h⟩

end

end PatternGraph
