import PatternGraph.Search.Step

/-!
# Running a search to its end

A search ends. Every node that is entered gets a mark above its earlier ones, so there is a bound
on what may still be entered below it, and when the stack has come back to a frame the state is the
one in which that frame was left. Hence a frame can be given a weight that depends only on the
state in which it will be taken off, and each turn makes the stack lighter.

* `room`: how many marks the nodes can still take, `roomLeft_mark?`: a new mark takes some;
* `cost`, `weight`: the weight of entering a node, of a whole stack;
* `weight_turn`: a turn makes the stack lighter;
* `Machine.run`: turn after turn; `search`: a graph along a subject.
-/

namespace PatternGraph

/-! ## Room for marks -/

/-- How many offsets up to `size` lie above the latest mark. -/
def markRoom (size : Nat) : List Nat → Nat
  | [] => size + 1
  | offset :: _ => size - offset

/-- How many marks the nodes can still take in a subject of the given size. -/
def room (size : Nat) (marks : Array (List Nat)) : Nat :=
  marks.toList.foldr (fun m n => markRoom size m + n) 0

theorem foldr_modify_lt {α : Type} {w : α → Nat} {f : α → α} {x : α} :
    ∀ {xs : List α} {i : Nat}, xs[i]? = some x → w (f x) < w x →
      (xs.modify i f).foldr (fun y n => w y + n) 0 < xs.foldr (fun y n => w y + n) 0
  | [], _, h, _ => by simp at h
  | y :: ys, 0, h, hlt => by
    simp only [List.getElem?_cons_zero, Option.some.injEq] at h
    subst h
    simpa using hlt
  | y :: ys, i + 1, h, hlt => by
    have := foldr_modify_lt (w := w) (f := f) (by simpa using h) hlt
    simpa using this

theorem room_mark? {st st' : State} {node offset size : Nat} (hs : offset ≤ size)
    (h : st.mark? node offset = some st') : room size st'.marks < room size st.marks := by
  obtain ⟨⟨l, hl, hf⟩, rfl⟩ := State.mark?_eq_some.1 h
  have hlt : markRoom size (offset :: l) < markRoom size l := by
    cases l with
    | nil => simp only [markRoom]; omega
    | cons o l =>
      have ho : o < offset := by simpa [State.isFresh] using hf
      simp only [markRoom]; omega
  simp only [room, Array.toList_modify]
  exact foldr_modify_lt (by simpa using hl) hlt

/-! ## The weight of a stack -/

/-- The largest number of successors. -/
def degree : List Node → Nat
  | [] => 0
  | n :: ns => max n.next.length (degree ns)

theorem length_next_le_degree {n : Node} : ∀ {ns : List Node}, n ∈ ns → n.next.length ≤ degree ns
  | m :: ns, h => by
    rcases List.mem_cons.1 h with rfl | h
    · exact Nat.le_max_left ..
    · exact Nat.le_trans (length_next_le_degree h) (Nat.le_max_right ..)

/-- What entering a node may weigh if there is room for that many marks. -/
def cost (degree : Nat) : Nat → Nat
  | 0 => 1
  | room + 1 => (degree + 1) * (cost degree room + 1) + 6

theorem cost_pos (degree room : Nat) : 0 < cost degree room := by
  cases room <;> simp [cost]

theorem cost_mono (degree : Nat) {a b : Nat} (h : a ≤ b) : cost degree a ≤ cost degree b := by
  induction h with
  | refl => exact Nat.le_refl _
  | step _ ih =>
    apply Nat.le_trans ih
    simp only [cost, Nat.add_mul]
    omega

/-- The weight of the stack in the given state. Frames for undoing change the state in which the
frames below them are weighed. -/
def weight (g : Graph) (size : Nat) : List Frame → State → Nat
  | [], _ => 0
  | .enter _ _ :: stack, st =>
    cost (degree g.nodes.toList) (room size st.marks) + weight g size stack st
  | .resume next _ :: stack, st =>
    next.length * (cost (degree g.nodes.toList) (room size st.marks) + 1) + 1 +
      weight g size stack st
  | .leave _ _ _ :: stack, st =>
    cost (degree g.nodes.toList) (room size st.marks) + 2 + weight g size stack st
  | .undo u :: stack, st => 1 + weight g size stack (st.undo u)

/-- The weight of a machine's stack in its own state. -/
def Machine.weight (g : Graph) (subject : Array Char) (m : Machine) : Nat :=
  PatternGraph.weight g subject.size m.stack m.state

section

variable {g : Graph} {subject : Array Char}

theorem weight_follow_le (size : Nat) (next : List Nat) (offset : Nat) (stack : List Frame)
    (st : State) : weight g size (follow next offset stack) st ≤
      next.length * (cost (degree g.nodes.toList) (room size st.marks) + 1) +
        weight g size stack st := by
  unfold follow
  split
  · simp
  · simp only [weight, List.length_singleton]; omega
  · simp only [weight, List.length_cons, Nat.add_mul]; omega

theorem State.marks_closeGroup? {st st' : State} {group offset : Nat} {stop : Option Nat}
    (h : st.closeGroup? group offset = some (stop, st')) : st'.marks = st.marks := by
  obtain ⟨s, -, -, rfl⟩ := State.closeGroup?_eq_some.1 h
  rfl

/-- What a node does weighs less than entering it. -/
theorem weight_act_lt {node offset k : Nat} {n : Node} {m m' : Machine}
    (hn : n.next.length ≤ degree g.nodes.toList) (hk : room subject.size m.state.marks ≤ k)
    (h : act subject node n offset m = .going m') :
    m'.weight g subject + 1 < cost (degree g.nodes.toList) (k + 1) + m.weight g subject := by
  have hc := cost_mono (degree g.nodes.toList) hk
  have hp := Nat.mul_le_mul hn (Nat.add_le_add_right hc 1)
  have hf := fun offset stack => weight_follow_le (g := g) subject.size n.next offset stack
  have hcost : cost (degree g.nodes.toList) (k + 1) =
      degree g.nodes.toList * (cost (degree g.nodes.toList) k + 1) +
        (cost (degree g.nodes.toList) k + 1) + 6 := by
    simp only [cost, Nat.add_mul, Nat.one_mul]
  simp only [Machine.weight]
  unfold act at h
  split at h
  · split at h <;> cases h
    · have := hf (offset + 1) m.stack m.state
      dsimp only; omega
    · omega
  · cases h
    have := hf offset m.stack m.state
    dsimp only; omega
  · next group _ =>
    cases h
    have := hf offset (.undo (.dropSpan group) :: m.stack) (m.state.openGroup group offset)
    have hm : (m.state.openGroup group offset).marks = m.state.marks := rfl
    simp only [weight, State.undo_openGroup, hm] at this
    dsimp only; omega
  · next group _ =>
    split at h <;> cases h
    · omega
    · next stop st hst =>
      have := hf offset (.undo (.restoreStop group stop) :: m.stack) st
      simp only [weight, State.undo_closeGroup? hst, State.marks_closeGroup? hst] at this
      dsimp only; omega
  · split at h
    · cases h; omega
    · next stop st hst =>
      split at h <;> cases h
      simp only [weight, State.undo_closeGroup? hst]; omega
  · split at h <;> cases h
    · omega
    · next stop _ =>
      have := hf stop m.stack m.state
      dsimp only; omega
  · next bounds exit _ =>
    cases h
    have hu : weight g subject.size (.undo (.restoreCount node (m.state.count node)) :: m.stack)
        (m.state.setCount node (min countLimit (m.state.count node + 1))) =
          1 + weight g subject.size m.stack m.state := by
      simp only [weight, State.undo_setCount]
    have hm : (m.state.setCount node (min countLimit (m.state.count node + 1))).marks =
        m.state.marks := rfl
    have hl : ∀ stack st, st.marks = m.state.marks →
        weight g subject.size (.leave node exit offset :: stack) st =
          cost (degree g.nodes.toList) (room subject.size m.state.marks) + 2 +
            weight g subject.size stack st := by
      intro stack st hst; simp only [weight, hst]
    dsimp only
    split
    · omega
    · split
      · apply Nat.lt_of_le_of_lt (Nat.add_le_add_right (hf offset _ _) 1)
        rw [hm]
        split
        · rw [hl _ _ hm]; omega
        · omega
      · split
        · rw [hl _ _ hm]; omega
        · omega
  · split at h <;> cases h
    · have := hf offset m.stack m.state
      dsimp only; omega
    · omega

theorem weight_enter_lt {node offset : Nat} {m m' : Machine}
    (h : enter g subject node offset m = .going m') :
    m'.weight g subject < cost (degree g.nodes.toList) (room subject.size m.state.marks) +
      m.weight g subject := by
  have hpos := cost_pos (degree g.nodes.toList) (room subject.size m.state.marks)
  unfold enter at h
  split at h
  · cases h; omega
  next n hn =>
  split at h
  · next hs =>
    split at h
    · cases h; omega
    · next st hst =>
      have hroom := room_mark? hs hst
      obtain ⟨k, hk⟩ := Nat.exists_eq_add_one_of_ne_zero (Nat.ne_of_gt (Nat.zero_lt_of_lt hroom))
      rw [hk] at hroom ⊢
      have hmem : n ∈ g.nodes.toList := by
        simpa using Array.mem_of_getElem? hn
      have hlt := weight_act_lt (length_next_le_degree hmem) (Nat.le_of_lt_succ hroom) h
      simp only [Machine.weight, weight, State.undo_mark? hst] at hlt
      simp only [Machine.weight]; omega
  · cases h; omega

theorem weight_turn_lt {m m' : Machine} (h : m.turn g subject = .going m') :
    m'.weight g subject < m.weight g subject := by
  obtain ⟨st, stack⟩ := m
  unfold Machine.turn at h
  dsimp only at h
  split at h
  · simp at h
  · have := weight_enter_lt h
    simpa only [Machine.weight, weight] using this
  · next next offset stack =>
    cases h
    have := weight_follow_le (g := g) subject.size next offset stack st
    simp only [Machine.weight, weight]; omega
  · next node exit offset stack =>
    cases h
    have hm : (st.setCount node 0).marks = st.marks := rfl
    simp only [Machine.weight, weight, hm, State.undo_setCount]; omega
  · cases h
    simp only [Machine.weight, weight]; omega

end

/-! ## Turn after turn -/

/-- Takes turns until the path has arrived or nothing is left to try. -/
def Machine.run (g : Graph) (subject : Array Char) (m : Machine) : Bool × State :=
  match _h : m.turn g subject with
  | .going m' => m'.run g subject
  | .accepted st => (true, st)
  | .exhausted st => (false, st)
termination_by m.weight g subject
decreasing_by exact weight_turn_lt _h

/-- Searches along the graph from its start, with nothing done yet. The state is the one in which
the path has arrived, or the one that is left when everything has been taken back. -/
def search (g : Graph) (subject : Array Char) : Bool × State :=
  Machine.run g subject ⟨State.initial g.size g.groups, [.enter g.start 0]⟩

end PatternGraph
