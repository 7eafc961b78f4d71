import PatternGraph.Search.Run

/-!
# The search as a recursion

The stack of a search stands for a descent that calls itself: coming to a node, what is tried next
follows from the node and the state alone, and when all of it has failed the state is as it was.

* `Visit`: a node that is about to be entered, with the offset and the state;
* `Visit.onward`: what entering it leads to, in the order in which it is tried;
* `Visit.descend`: the recursion, which ends because every entry takes `room`;
* **`run_enter`**: what lies below a frame for entering does not matter until the descent has failed;
* **`search_eq_descend`**: a search is the descent from the start of the graph.
-/

namespace PatternGraph

/-- A node that is about to be entered at an offset, and the state it is entered in. -/
structure Visit where
  node : Nat
  offset : Nat
  state : State

/-- What entering a node leads to: the path has arrived, or these visits are tried in order. -/
inductive Onward where
  | arrived (st : State)
  | ways (visits : List Visit)

/-- The visits of these nodes, all at one offset and in one state. -/
def visits (next : List Nat) (offset : Nat) (st : State) : List Visit :=
  next.map fun node => ⟨node, offset, st⟩

/-- What a node leads to at an offset, once it has been marked. -/
def Node.onward (subject : Array Char) (node : Nat) (n : Node) (offset : Nat) (st : State) :
    Onward :=
  match n.kind with
  | .test t =>
    .ways (if subject[offset]?.any t.accepts then visits n.next (offset + 1) st else [])
  | .join => .ways (visits n.next offset st)
  | .groupOpen group => .ways (visits n.next offset (st.openGroup group offset))
  | .groupClose group =>
    .ways (match st.closeGroup? group offset with
      | none => []
      | some (_, st) => visits n.next offset st)
  | .terminal =>
    if offset = subject.size then
      match st.closeGroup? 0 offset with
      | none => .ways []
      | some (_, st) => .arrived st
    else .ways []
  | .backref group =>
    .ways (match st.copyEnd? subject group offset with
      | none => []
      | some stop => visits n.next stop st)
  | .repetition bounds exit =>
    let count := min countLimit (st.count node + 1)
    .ways (if bounds.exceeded count then []
      else (if bounds.mayLoop count then visits n.next offset (st.setCount node count) else []) ++
        if bounds.satisfied count then [⟨exit, offset, (st.setCount node count).setCount node 0⟩]
        else [])
  | .anchor a => .ways (if a.holds subject offset then visits n.next offset st else [])

/-- What a visit leads to: nothing, if the node is being tried at that offset already. -/
def Visit.onward (g : Graph) (subject : Array Char) (v : Visit) : Onward :=
  match g.nodes[v.node]? with
  | none => .ways []
  | some n =>
    if v.offset ≤ subject.size then
      match v.state.mark? v.node v.offset with
      | none => .ways []
      | some st => n.onward subject v.node v.offset st
    else .ways []

section

variable {g : Graph} {subject : Array Char}

theorem mem_visits {next : List Nat} {offset : Nat} {st : State} {w : Visit} :
    w ∈ visits next offset st ↔ ∃ node ∈ next, w = ⟨node, offset, st⟩ := by
  simp [visits, eq_comm]

theorem Node.marks_of_onward {node offset : Nat} {n : Node} {st : State} {ws : List Visit}
    (h : n.onward subject node offset st = .ways ws) :
    ∀ w ∈ ws, w.state.marks = st.marks := by
  have hv : ∀ {next : List Nat} {o : Nat} {st' : State} {w : Visit},
      w ∈ visits next o st' → st'.marks = st.marks → w.state.marks = st.marks := by
    intro next o st' w hw hm
    obtain ⟨_, -, rfl⟩ := mem_visits.1 hw
    exact hm
  intro w hw
  obtain ⟨kind, next⟩ := n
  cases kind with
  | test t =>
    cases h
    split at hw
    · exact hv hw rfl
    · simp at hw
  | join => cases h; exact hv hw rfl
  | groupOpen group => cases h; exact hv hw rfl
  | groupClose group =>
    cases h
    split at hw
    · simp at hw
    · next hc => exact hv hw (State.marks_closeGroup? hc)
  | terminal =>
    simp only [Node.onward] at h
    split at h
    · split at h <;> cases h
      cases hw
    · cases h; cases hw
  | backref group =>
    cases h
    split at hw
    · simp at hw
    · exact hv hw rfl
  | repetition bounds exit =>
    cases h
    split at hw
    · simp at hw
    · rcases List.mem_append.1 hw with hw | hw
      · split at hw
        · exact hv hw rfl
        · simp at hw
      · split at hw
        · rw [List.mem_singleton] at hw; subst hw; rfl
        · simp at hw
  | anchor a =>
    cases h
    split at hw
    · exact hv hw rfl
    · simp at hw

theorem Visit.room_lt_of_onward {v : Visit} {ws : List Visit}
    (h : v.onward g subject = .ways ws) :
    ∀ w ∈ ws, room subject.size w.state.marks < room subject.size v.state.marks := by
  intro w hw
  unfold Visit.onward at h
  split at h
  · cases h; cases hw
  split at h
  · next hs =>
    split at h
    · cases h; cases hw
    · next hst =>
      rw [Node.marks_of_onward h w hw]
      exact room_mark? hs hst
  · cases h; cases hw

end

/-- Tries a visit, and what it leads to in order, until one path arrives. -/
def Visit.descend (g : Graph) (subject : Array Char) (v : Visit) : Option State :=
  match _h : v.onward g subject with
  | .arrived st => some st
  | .ways ws => ws.attach.findSome? fun w => w.1.descend g subject
termination_by room subject.size v.state.marks
decreasing_by exact Visit.room_lt_of_onward _h w.1 w.2

section

variable {g : Graph} {subject : Array Char}

theorem Visit.descend_of_arrived {v : Visit} {st : State}
    (h : v.onward g subject = .arrived st) : v.descend g subject = some st := by
  rw [Visit.descend]
  split
  · next h' => rw [h] at h'; cases h'; rfl
  · next h' => rw [h] at h'; cases h'

theorem Visit.descend_of_ways {v : Visit} {ws : List Visit} (h : v.onward g subject = .ways ws) :
    v.descend g subject = ws.findSome? (·.descend g subject) := by
  rw [Visit.descend]
  split
  · next h' => rw [h] at h'; cases h'
  · next h' =>
    rw [h] at h'
    cases h'
    rw [← List.attach_map_subtype_val ws, List.findSome?_map, List.attach_map_subtype_val]
    rfl

/-! ## The stack stands for the descent -/

/-- The end of the run that a turn belongs to. -/
def Turn.result (g : Graph) (subject : Array Char) : Turn → Bool × State
  | .going m => m.run g subject
  | .accepted st => (true, st)
  | .exhausted st => (false, st)

theorem run_eq_result (m : Machine) : m.run g subject = (m.turn g subject).result g subject := by
  rw [Machine.run]
  split <;> simp_all [Turn.result]

theorem run_undo (u : Undo) (st : State) (stack : List Frame) :
    Machine.run g subject ⟨st, .undo u :: stack⟩ = Machine.run g subject ⟨st.undo u, stack⟩ :=
  run_eq_result _

theorem run_leave (node exit offset : Nat) (st : State) (stack : List Frame) :
    Machine.run g subject ⟨st, .leave node exit offset :: stack⟩ =
      Machine.run g subject ⟨st.setCount node 0,
        .enter exit offset :: .undo (.restoreCount node (st.count node)) :: stack⟩ :=
  run_eq_result _

/-- The end of a run in which a descent comes first: if it fails, the run goes on below. -/
def settle (g : Graph) (subject : Array Char) (found : Option State) (below : Machine) :
    Bool × State :=
  found.elim (below.run g subject) fun st => (true, st)

/-- The end of a run in which these visits come first. -/
def Onward.result (g : Graph) (subject : Array Char) (below : Machine) : Onward → Bool × State
  | .arrived st => (true, st)
  | .ways ws => settle g subject (ws.findSome? (·.descend g subject)) below

/-- A frame that takes a change back is taken off before the run goes on below it. -/
theorem settle_undo {found : Option State} {u : Undo} {st st' : State} {stack : List Frame}
    (h : st'.undo u = st) :
    settle g subject found ⟨st', .undo u :: stack⟩ = settle g subject found ⟨st, stack⟩ := by
  cases found with
  | some _ => rfl
  | none => simp only [settle, Option.elim_none, run_undo, h]

/-- The top of the stack for a visit stands for its descent, whatever lies below. -/
def Stands (g : Graph) (subject : Array Char) (v : Visit) : Prop :=
  ∀ stack, Machine.run g subject ⟨v.state, .enter v.node v.offset :: stack⟩ =
    settle g subject (v.descend g subject) ⟨v.state, stack⟩

/-- Successors on the stack are tried in order, if each of them stands for its descent. -/
theorem run_follow {offset : Nat} {st : State} : ∀ {next : List Nat} (stack : List Frame),
    (∀ v ∈ visits next offset st, Stands g subject v) →
    Machine.run g subject ⟨st, follow next offset stack⟩ =
      settle g subject ((visits next offset st).findSome? (·.descend g subject)) ⟨st, stack⟩
  | [], _, _ => rfl
  | [n], stack, h => by
    rw [follow, h ⟨n, offset, st⟩ (by simp [visits])]
    simp only [visits, List.map_cons, List.map_nil, List.findSome?_cons, List.findSome?_nil]
    cases Visit.descend g subject ⟨n, offset, st⟩ <;> rfl
  | n :: m :: rest, stack, h => by
    have hrest := run_follow stack fun v hv => h v (List.mem_cons_of_mem _ hv)
    change Machine.run g subject ⟨st, .enter n offset :: .resume (m :: rest) offset :: stack⟩ = _
    rw [h ⟨n, offset, st⟩ (by simp [visits]), visits, List.map_cons, List.findSome?_cons]
    cases Visit.descend g subject ⟨n, offset, st⟩ with
    | some st' => rfl
    | none => exact (run_eq_result _).trans hrest

theorem result_act {node offset : Nat} {n : Node} {st : State} {stack : List Frame}
    (ih : ∀ v : Visit, v.state.marks = st.marks → Stands g subject v) :
    (act subject node n offset ⟨st, stack⟩).result g subject =
      (n.onward subject node offset st).result g subject ⟨st, stack⟩ := by
  have hf : ∀ (next : List Nat) (o : Nat) (st' : State) (stack : List Frame),
      st'.marks = st.marks → Machine.run g subject ⟨st', follow next o stack⟩ =
        settle g subject ((visits next o st').findSome? (·.descend g subject)) ⟨st', stack⟩ := by
    intro next o st' stack hm
    apply run_follow stack fun v hv => ih v ?_
    obtain ⟨_, -, rfl⟩ := mem_visits.1 hv
    exact hm
  obtain ⟨kind, next⟩ := n
  cases kind with
  | test t =>
    simp only [act, Node.onward]
    by_cases h : subject[offset]?.any t.accepts
    · rw [if_pos h, if_pos h]; exact hf _ _ _ _ rfl
    · rw [if_neg h, if_neg h]; rfl
  | join => exact hf _ _ _ _ rfl
  | groupOpen group =>
    exact (hf next offset (st.openGroup group offset) _ rfl).trans
      (settle_undo (st.undo_openGroup group offset))
  | groupClose group =>
    simp only [act, Node.onward]
    cases hc : st.closeGroup? group offset with
    | none => rfl
    | some c =>
      exact (hf _ _ _ _ (State.marks_closeGroup? hc)).trans
        (settle_undo (State.undo_closeGroup? hc))
  | terminal =>
    simp only [act, Node.onward]
    cases hc : st.closeGroup? 0 offset with
    | none =>
      dsimp only
      split <;> rfl
    | some c =>
      obtain ⟨stop, st'⟩ := c
      dsimp only
      by_cases h : offset = subject.size
      · rw [if_pos h, if_pos h]; rfl
      · -- the match is ended before the end of the subject, and that is taken back at once
        rw [if_neg h, if_neg h]
        exact (settle_undo (State.undo_closeGroup? hc) : settle g subject none _ = _)
  | backref group =>
    simp only [act, Node.onward]
    cases st.copyEnd? subject group offset with
    | none => rfl
    | some stop => exact hf _ _ _ _ rfl
  | repetition bounds exit =>
    simp only [act, Node.onward]
    generalize hcount : min countLimit (st.count node + 1) = count
    have hc := st.undo_setCount node count
    -- on the way out the count is zero, until that way has failed
    have hl : ∀ found, settle g subject found ⟨st.setCount node count,
        if bounds.satisfied count then
          .leave node exit offset :: .undo (.restoreCount node (st.count node)) :: stack
        else .undo (.restoreCount node (st.count node)) :: stack⟩ =
      settle g subject (found.or ((if bounds.satisfied count then
          [(⟨exit, offset, (st.setCount node count).setCount node 0⟩ : Visit)]
        else []).findSome? (·.descend g subject))) ⟨st, stack⟩ := by
      intro found
      cases found with
      | some st' => rfl
      | none =>
        by_cases hs : bounds.satisfied count
        · rw [if_pos hs, if_pos hs, Option.none_or, List.findSome?_singleton]
          calc Machine.run g subject ⟨st.setCount node count, _⟩
            _ = _ := run_leave node exit offset _ _
            _ = _ := ih ⟨exit, offset, (st.setCount node count).setCount node 0⟩ rfl _
            _ = _ := settle_undo ((st.setCount node count).undo_setCount node 0)
            _ = _ := settle_undo hc
        · rw [if_neg hs, if_neg hs]; exact settle_undo hc
    by_cases he : bounds.exceeded count
    · rw [if_pos he, if_pos he]
      show _ = settle g subject none ⟨st, stack⟩
      exact (settle_undo hc : settle g subject none _ = _)
    · rw [if_neg he, if_neg he]
      by_cases hm : bounds.mayLoop count
      · rw [if_pos hm, if_pos hm]
        simp only [Turn.result, Onward.result, List.findSome?_append]
        rw [hf next offset (st.setCount node count) _ rfl, hl]
      · rw [if_neg hm, if_neg hm]; exact hl none
  | anchor a =>
    simp only [act, Node.onward]
    by_cases h : a.holds subject offset
    · rw [if_pos h, if_pos h]; exact hf _ _ _ _ rfl
    · rw [if_neg h, if_neg h]; rfl

/-- **A frame for entering stands for its descent**: only when that has failed does the run go on
with the stack below, and in the state in which the node was entered. -/
theorem run_enter (v : Visit) (stack : List Frame) :
    Machine.run g subject ⟨v.state, .enter v.node v.offset :: stack⟩ =
      settle g subject (v.descend g subject) ⟨v.state, stack⟩ := by
  -- the induction is on the room for marks, which every entry takes some of
  induction hr : room subject.size v.state.marks using Nat.strongRecOn generalizing v stack with
  | _ r ih =>
  subst hr
  have hon : Machine.run g subject ⟨v.state, .enter v.node v.offset :: stack⟩ =
      (v.onward g subject).result g subject ⟨v.state, stack⟩ := by
    rw [run_eq_result]
    simp only [Machine.turn, enter, Visit.onward]
    cases hn : g.nodes[v.node]? with
    | none => rfl
    | some n =>
      dsimp only
      by_cases hs : v.offset ≤ subject.size
      · rw [if_pos hs, if_pos hs]
        cases hst : v.state.mark? v.node v.offset with
        | none => rfl
        | some st =>
          have hroom := room_mark? hs hst
          have ih' : ∀ w : Visit, w.state.marks = st.marks → Stands g subject w := by
            intro w hw stack'
            exact ih _ (by rw [hw]; exact hroom) w stack' rfl
          refine (result_act ih').trans ?_
          dsimp only
          cases n.onward subject v.node v.offset st with
          | arrived _ => rfl
          | ways _ => exact settle_undo (State.undo_mark? hst)
      · rw [if_neg hs, if_neg hs]; rfl
  rw [hon]
  cases ho : v.onward g subject with
  | arrived st => rw [Visit.descend_of_arrived ho]; rfl
  | ways ws => rw [Visit.descend_of_ways ho]; rfl

/-- **A search is the descent from the start**, and finds nothing only if that fails. -/
theorem search_eq_descend (g : Graph) (subject : Array Char) :
    search g subject =
      match Visit.descend g subject ⟨g.start, 0, State.initial g.size g.groups⟩ with
      | some st => (true, st)
      | none => (false, State.initial g.size g.groups) := by
  rw [search, run_enter ⟨g.start, 0, State.initial g.size g.groups⟩]
  cases Visit.descend g subject _ with
  | some st => rfl
  | none => exact run_eq_result _

end

end PatternGraph
