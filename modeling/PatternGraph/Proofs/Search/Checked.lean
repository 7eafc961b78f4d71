import PatternGraph.Proofs.Graph.Wired
import PatternGraph.Proofs.Search.Pending

/-!
# A search with checks

The turns of a search reach into the nodes of the graph, into captures and counts, and into the
subject. Here they are taken with a check before each access, and before the end of a span is set.
Along a graph that has been compiled no check ever fails.

* `Breach`: what a check finds;
* `State.undoChecked`, `State.closeGroupChecked`, `State.copyEndChecked`: changes and copies with
  checks;
* `Machine.turnChecked`: a turn with checks;
* **`turnChecked_eq`**: no check of a turn fails, and the turn is the one without checks;
* **`no_check_fails`**: none fails from the first character of a pattern to the end of a search.
-/

namespace PatternGraph

/-- Why a search cannot go on as it should. -/
inductive Breach where
  /-- There is no node with this index. -/
  | noNode (node : Nat)
  /-- No node has these successors left. -/
  | noSuccessors (next : List Nat)
  /-- There are no captures for the group. -/
  | noGroup (group : Nat)
  /-- The group has no instance that could end. -/
  | noInstance (group : Nat)
  /-- There is no count for the node. -/
  | noCount (node : Nat)
  /-- The subject has no such part. -/
  | noText (start stop : Nat)
  /-- The span would end before it begins. -/
  | reversed (start stop : Nat)
deriving DecidableEq

/-! ## The state -/

/-- Sets the end of a span, which is not to lie before its beginning. -/
def Span.withStopChecked (s : Span) (stop : Option Nat) : Except Breach Span :=
  match s.start, stop with
  | some a, some b => if a ≤ b then .ok (s.withStop stop) else .error (.reversed a b)
  | _, _ => .ok (s.withStop stop)

namespace State

/-- Begins a new instance of a group there is room for. -/
def openGroupChecked (st : State) (group offset : Nat) : Except Breach State :=
  if group < st.captures.size then .ok (st.openGroup group offset) else .error (.noGroup group)

/-- Ends the latest instance of a group, which has to have one, and tells where it ended before. -/
def closeGroupChecked (st : State) (group offset : Nat) : Except Breach (Option Nat × State) :=
  match st.captures[group]? with
  | none => .error (.noGroup group)
  | some [] => .error (.noInstance group)
  | some (s :: rest) =>
    match s.withStopChecked (some offset) with
    | .error e => .error e
    | .ok t => .ok (s.stop, { st with captures := st.captures.setIfInBounds group (t :: rest) })

/-- Sets the passes counted at a node that has a count. -/
def setCountChecked (st : State) (node count : Nat) : Except Breach State :=
  if node < st.counts.size then .ok (st.setCount node count) else .error (.noCount node)

/-- Takes back one change. -/
def undoChecked (st : State) : Undo → Except Breach State
  | .unmark node offset => .ok (st.undo (.unmark node offset))
  | .dropSpan group =>
    if group < st.captures.size then .ok (st.undo (.dropSpan group)) else .error (.noGroup group)
  | .restoreStop group stop =>
    match st.captures[group]? with
    | none => .error (.noGroup group)
    | some [] => .ok st
    | some (s :: rest) =>
      match s.withStopChecked stop with
      | .error e => .error e
      | .ok t => .ok { st with captures := st.captures.setIfInBounds group (t :: rest) }
  | .restoreCount node count => st.setCountChecked node count

/-- Where a copy of the group's text ends that begins at `offset`, if there is one. The text is only
looked at if the subject is long enough for a copy. -/
def copyEndChecked (st : State) (subject : Array Char) (group offset : Nat) :
    Except Breach (Option Nat) :=
  match (st.group? group).bind Span.range? with
  | none => .ok none
  | some (start, stop) =>
    if offset + (stop - start) ≤ subject.size then
      if start ≤ stop ∧ stop ≤ subject.size then
        .ok (if sameText subject start offset (stop - start) then some (offset + (stop - start))
          else none)
      else .error (.noText start stop)
    else .ok none

end State

/-! ## Turns -/

/-- What a node does at an offset, once it has been marked. -/
def actChecked (subject : Array Char) (node : Nat) (n : Node) (offset : Nat) (m : Machine) :
    Except Breach Turn :=
  match n.kind with
  | .groupOpen group =>
    match m.state.openGroupChecked group offset with
    | .error e => .error e
    | .ok st => .ok (.going ⟨st, follow n.next offset (.undo (.dropSpan group) :: m.stack)⟩)
  | .groupClose group =>
    match m.state.closeGroupChecked group offset with
    | .error e => .error e
    | .ok (stop, st) =>
      .ok (.going ⟨st, follow n.next offset (.undo (.restoreStop group stop) :: m.stack)⟩)
  | .terminal =>
    match m.state.closeGroupChecked 0 offset with
    | .error e => .error e
    | .ok (stop, st) =>
      .ok (if offset = subject.size then .accepted st
        else .going ⟨st, .undo (.restoreStop 0 stop) :: m.stack⟩)
  | .backref group =>
    match m.state.copyEndChecked subject group offset with
    | .error e => .error e
    | .ok none => .ok (.going m)
    | .ok (some stop) => .ok (.going { m with stack := follow n.next stop m.stack })
  | .repetition _ _ =>
    if node < m.state.counts.size then .ok (act subject node n offset m) else .error (.noCount node)
  | .test _ | .join | .anchor _ => .ok (act subject node n offset m)

/-- Takes the top frame off the stack and does what it says. -/
def Machine.turnChecked (g : Graph) (subject : Array Char) (m : Machine) : Except Breach Turn :=
  match m.stack with
  | [] => .ok (.exhausted m.state)
  | .enter node offset :: stack =>
    if offset ≤ subject.size then
      match g.nodes[node]? with
      | none => .error (.noNode node)
      | some n =>
        match m.state.mark? node offset with
        | none => .ok (.going ⟨m.state, stack⟩)
        | some st => actChecked subject node n offset ⟨st, .undo (.unmark node offset) :: stack⟩
    else .ok (.going ⟨m.state, stack⟩)
  | .resume next offset :: stack =>
    if g.nodes.any fun n => next.isSuffixOf n.next then
      .ok (.going ⟨m.state, follow next offset stack⟩)
    else .error (.noSuccessors next)
  | .leave node exit offset :: stack =>
    match m.state.setCountChecked node 0 with
    | .error e => .error e
    | .ok st =>
      .ok (.going ⟨st, .enter exit offset ::
        .undo (.restoreCount node (m.state.count node)) :: stack⟩)
  | .undo u :: stack =>
    match m.state.undoChecked u with
    | .error e => .error e
    | .ok st => .ok (.going ⟨st, stack⟩)

/-! ## No check fails -/

section

variable {g : Graph} {subject : Array Char} {st : State} {k : Nat}

theorem withStopChecked_eq {s : Span} {stop : Option Nat} (h : ∀ a ∈ s.start, ∀ b ∈ stop, a ≤ b) :
    s.withStopChecked stop = .ok (s.withStop stop) := by
  unfold Span.withStopChecked
  split
  · next a b ha => rw [if_pos (h a ha b rfl)]
  · rfl

/-- To set the end of the latest span is to put the span with its end in the place of that one. -/
theorem modify_setStop {xs : Array (List Span)} {s : Span} {rest : List Span}
    (h : xs[k]? = some (s :: rest)) (stop : Option Nat) :
    xs.modify k (State.setStop stop) = xs.setIfInBounds k (s.withStop stop :: rest) := by
  apply Array.ext_getElem?
  intro j
  rw [Array.getElem?_modify]
  by_cases hkj : k = j
  · subst hkj
    rw [if_pos rfl, h, Array.getElem?_setIfInBounds_self_of_lt (Array.getElem?_eq_some_iff.1 h).1]
    rfl
  · rw [if_neg hkj, Array.getElem?_setIfInBounds_ne hkj]

theorem modify_setStop_of_nil {xs : Array (List Span)} (h : xs[k]? = some []) (stop : Option Nat) :
    xs.modify k (State.setStop stop) = xs := by
  apply Array.ext_getElem?
  intro j
  rw [Array.getElem?_modify]
  by_cases hkj : k = j
  · subst hkj
    rw [if_pos rfl, h]
    rfl
  · rw [if_neg hkj]

theorem undoChecked_eq {u : Undo} (h : u.Sound st) : st.undoChecked u = .ok (st.undo u) := by
  cases u with
  | unmark node offset => rfl
  | dropSpan k => exact if_pos h
  | restoreCount node count => exact if_pos h
  | restoreStop k stop =>
    obtain ⟨hk, hstop⟩ := h
    obtain ⟨spans, hspans⟩ : ∃ spans, st.captures[k]? = some spans :=
      ⟨_, Array.getElem?_eq_getElem hk⟩
    simp only [State.undoChecked, State.undo, hspans]
    cases spans with
    | nil => rw [modify_setStop_of_nil hspans]
    | cons s rest =>
      have hlatest : st.latest? k = some s := by rw [State.latest?, hspans]; rfl
      simp only [withStopChecked_eq (hstop s hlatest), modify_setStop hspans]

theorem closeGroupChecked_eq {start offset : Nat} {rest : List Span}
    (h : st.captures[k]? = some (.startingAt start :: rest)) (hle : start ≤ offset) :
    ∃ ended, st.closeGroupChecked k offset = .ok ended ∧ st.closeGroup? k offset = some ended := by
  have hstop : ∀ a ∈ (Span.startingAt start).start, ∀ b ∈ some offset, a ≤ b := by
    rintro a ⟨⟩ b ⟨⟩
    exact hle
  have hlatest : st.latest? k = some (.startingAt start) := by rw [State.latest?, h]; rfl
  refine ⟨_, ?_, State.closeGroup?_eq_some.2 ⟨_, hlatest, rfl, rfl⟩⟩
  simp only [State.closeGroupChecked, h, withStopChecked_eq hstop, modify_setStop h]

theorem copyEndChecked_eq {offset : Nat} (h : ∀ start stop,
    (st.group? k).bind Span.range? = some (start, stop) → start ≤ stop ∧ stop ≤ subject.size) :
    st.copyEndChecked subject k offset = .ok (st.copyEnd? subject k offset) := by
  unfold State.copyEndChecked State.copyEnd?
  cases hrange : (st.group? k).bind Span.range? with
  | none => rfl
  | some range =>
    simp only [if_pos (h range.1 range.2 hrange)]
    by_cases hle : offset + (range.2 - range.1) ≤ subject.size
    · simp only [hle, if_true, true_and]
    · simp only [hle, if_false, false_and]

variable {p : Place} {mem : Memory} {opened : List Nat}

theorem Instances.range_le (h : Instances g.nodes p opened mem) (hm : Mirrors g st mem)
    (hk : k ≤ g.groups) {start stop : Nat}
    (hr : (st.group? k).bind Span.range? = some (start, stop)) :
    start ≤ stop ∧ stop ≤ p.offset := by
  obtain ⟨s, hs, hrange⟩ := Option.bind_eq_some_iff.1 hr
  rw [State.group?, Option.filter_eq_some_iff, hm.latest? hk] at hs
  by_cases hopen : k ∈ opened
  · obtain ⟨a, rest, he, -, -⟩ := h.latest k hopen
    rw [he] at hs
    cases hs.1
    cases hs.2
  · obtain ⟨a, b, rfl, hab, hb⟩ := (h.settled k hopen).closed s (List.mem_of_mem_head? hs.1)
    cases hrange
    exact ⟨hab, hb⟩

variable (hw : g.WellFormed) (hg : g.Fits)

include hw hg

theorem Reaches.lt_size (h : Reaches g subject p mem) : p.node < g.size := by
  cases h with
  | start =>
    have ht := (Array.getElem?_eq_some_iff.1 hg.nodes_terminal).1
    rw [hw.terminal] at ht
    rw [hw.start]
    exact Nat.lt_of_succ_lt ht
  | move _ hm =>
    obtain ⟨nd, hn, hq⟩ := hm.exists_onto
    exact hw.edges _ _ ⟨nd, hn, hq⟩

/-- **No check fails at a node that a way from the start has come to.** -/
theorem actChecked_eq {n : Node} {stack : List Frame} (hn : g.nodes[p.node]? = some n)
    (hr : Reaches g subject p mem) (hm : Mirrors g st mem) :
    actChecked subject p.node n p.offset ⟨st, stack⟩ =
      .ok (act subject p.node n p.offset ⟨st, stack⟩) := by
  obtain ⟨opened, hi⟩ := hr.instances hw hg
  have hfit := hg.kinds p.node n hn
  -- the group that is closed has an instance that has only begun
  have hclose : ∀ {k : Nat}, k ≤ g.groups →
      (∃ start rest, mem.captures k = .startingAt start :: rest ∧ start ≤ p.offset ∧
        Settled start rest) →
      ∃ stop st', st.closeGroupChecked k p.offset = .ok (stop, st') ∧
        st.closeGroup? k p.offset = some (stop, st') := by
    rintro k hk ⟨start, rest, he, hle, -⟩
    obtain ⟨⟨stop, st'⟩, hc⟩ := closeGroupChecked_eq (he ▸ hm.captures k hk) hle
    exact ⟨stop, st', hc⟩
  obtain ⟨kind, next⟩ := n
  cases kind with
  | test t | join | anchor a => rfl
  | groupOpen k =>
    have hk : k < st.captures.size := (Array.getElem?_eq_some_iff.1 (hm.captures k hfit)).1
    simp only [actChecked, act, State.openGroupChecked, if_pos hk]
  | groupClose k =>
    obtain ⟨stop, st', hc, hc'⟩ := hclose hfit (hi.unfinished hn)
    simp only [actChecked, act, hc, hc']
  | terminal =>
    obtain rfl := hi.eq_singleton hn
    obtain ⟨stop, st', hc, hc'⟩ :=
      hclose (Nat.zero_le _) (hi.latest 0 (List.mem_singleton.2 rfl))
    simp only [actChecked, act, hc, hc']
  | backref k =>
    have hc : st.copyEndChecked subject k p.offset = _ := copyEndChecked_eq fun start stop hrange =>
      have hle := hi.range_le hm hfit hrange
      ⟨hle.1, Nat.le_trans hle.2 hr.offset_le⟩
    simp only [actChecked, act, hc]
    cases st.copyEnd? subject k p.offset <;> rfl
  | repetition bounds exit =>
    have hlt : p.node < st.counts.size := (Array.getElem?_eq_some_iff.1
      (hm.counts p.node (Array.getElem?_eq_some_iff.1 hn).1)).1
    simp only [actChecked, if_pos hlt]

/-- **No check of a turn fails**, and the turn is the one without checks. -/
theorem turnChecked_eq {m : Machine} (h : m.Arises g subject) :
    m.turnChecked g subject = .ok (m.turn g subject) := by
  have hstacked := stacked_of_arises hw hg h
  obtain ⟨st, stack⟩ := m
  cases stack with
  | nil => rfl
  | cons frame stack =>
  cases frame with
  | enter node offset =>
    obtain ⟨mem, hpasses, htracks, -⟩ := hstacked.1.2 _ (List.mem_singleton.2 rfl)
    have hr := hpasses.reaches
    have hn : g.nodes[node]? = some _ := Array.getElem?_eq_getElem (hr.lt_size hw hg)
    simp only [Machine.turnChecked, Machine.turn, enter, if_pos hr.offset_le, hn]
    cases hmark : st.mark? node offset with
    | none => rfl
    | some marked =>
      obtain ⟨hcaptures, hcounts⟩ := State.eq_of_mark? hmark
      exact actChecked_eq (p := ⟨node, offset⟩) hw hg hn hr
        (htracks.mirrors.congr hcaptures hcounts)
  | resume next offset =>
    obtain ⟨⟨⟨node, n, hn, hfor⟩, -⟩, -⟩ := hstacked
    have hany : g.nodes.any fun n => next.isSuffixOf n.next := by
      rw [Array.any_eq_true']
      exact ⟨n, Array.mem_of_getElem? hn, List.isSuffixOf_iff_suffix.2 hfor⟩
    simp only [Machine.turnChecked, Machine.turn, if_pos hany]
  | leave node exit offset =>
    obtain ⟨⟨⟨v, n, hn, rfl⟩, hv⟩, -⟩ := hstacked
    obtain ⟨mem, -, htracks, -⟩ := hv _ (List.mem_singleton.2 rfl)
    have hlt := (Array.getElem?_eq_some_iff.1
      (htracks.mirrors.counts node (Array.getElem?_eq_some_iff.1 hn).1)).1
    rw [State.setCount, Array.size_setIfInBounds] at hlt
    simp only [Machine.turnChecked, Machine.turn, State.setCountChecked, if_pos hlt]
  | undo u => simp only [Machine.turnChecked, Machine.turn, undoChecked_eq hstacked.1]

end

/-- **No check fails**, from the first character of a pattern to the end of a search. The graph of a
pattern can be wired in one pass, which stops at a fault of the pattern if there is one, and never
at an index out of range, at a quantifier that is none, or at a range with its ends in the wrong
order. Each turn of a search along it finds the nodes, the groups, the counts and the text that it
asks for, an instance to end where a group is closed, and every span with its ends in order. -/
theorem no_check_fails (limits : Limits) (pattern : String) :
    wire limits pattern.toList = (compile limits pattern).mapError (fun e => .fault e.toFault) ∧
    (∀ slip, wire limits pattern.toList ≠ .error (.slip slip)) ∧
    ∀ g, compile limits pattern = .ok g → ∀ (subject : Array Char) (m : Machine),
      m.Arises g subject → m.turnChecked g subject = .ok (m.turn g subject) := by
  have hwire : wire limits pattern.toList =
      (compile limits pattern).mapError (fun e => .fault e.toFault) := by
    rw [wire_eq, compile]
    cases Pattern.read limits pattern.toList <;> rfl
  refine ⟨hwire, fun slip hslip => ?_, fun g hg subject m hm => ?_⟩
  · rw [hwire] at hslip
    cases hc : compile limits pattern with
    | error e => rw [hc] at hslip; cases hslip
    | ok g => rw [hc] at hslip; cases hslip
  · obtain ⟨p, hp, rfl⟩ := exists_read_of_compile hg
    exact turnChecked_eq (wellFormed_of_read hp) (Graph.fits_ofPattern (fits_of_read hp)) hm

/-- In `(a)\1` along `aa` the group has been closed before its text is copied. -/
theorem no_check_fails_copy : ∃ (g : Graph) (m m' : Machine), compile {} "(a)\\1" = .ok g ∧
    wire {} "(a)\\1".toList = .ok g ∧ m.Arises g #['a', 'a'] ∧
      m.stack.head? = some (.enter 5 1) ∧
      m.state.captures = #[[⟨some 0, none⟩], [⟨some 0, some 1⟩]] ∧
      m.turnChecked g #['a', 'a'] = .ok (.going m') ∧ m'.stack.head? = some (.enter 1 2) := by
  let g : Graph := Graph.ofPattern ⟨[[.atom (.group 1 [[.atom (.test (.literal 'a')) none]]) none,
    .atom (.backref 1) none]], 1⟩
  let m : Machine := ⟨⟨#[[0], [], [0], [1], [0], []],
    #[[⟨some 0, none⟩], [⟨some 0, some 1⟩]], #[0, 0, 0, 0, 0, 0]⟩,
    [.enter 5 1, .undo (.restoreStop 1 none), .undo (.unmark 3 1), .undo (.unmark 4 0),
      .undo (.dropSpan 1), .undo (.unmark 2 0), .undo (.dropSpan 0), .undo (.unmark 0 0)]⟩
  have hc : compile {} "(a)\\1" = .ok g := by decide +kernel
  have hm : m.Arises g #['a', 'a'] := by
    let m' : Machine := ⟨⟨#[[0], [], [0], [], [], []], #[[⟨some 0, none⟩], [⟨some 0, none⟩]],
      #[0, 0, 0, 0, 0, 0]⟩, .enter 4 0 :: m.stack.drop 4⟩
    have hopened : (Machine.start g).turns g #['a', 'a'] 2 = .going m' := rfl
    have hclosed : m'.turns g #['a', 'a'] 2 = .going m := rfl
    exact (Machine.Arises.start.turns hopened).turns hclosed
  obtain ⟨m', hturn, hstack⟩ : ∃ m', m.turn g #['a', 'a'] = .going m' ∧
      m'.stack.head? = some (.enter 1 2) := ⟨_, rfl, rfl⟩
  obtain ⟨hwire, -, hturns⟩ := no_check_fails {} "(a)\\1"
  rw [hc] at hwire
  exact ⟨g, m, m', hc, hwire, hm, rfl, rfl, (hturns g hc _ m hm).trans (congrArg _ hturn), hstack⟩

end PatternGraph
