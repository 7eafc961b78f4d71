import PatternGraph.Regex
import PatternGraph.Proofs.Search.Turns

/-!
# What the stack takes back

Each frame for work is taken off in the state in which it was put on the stack: what has been
changed since is taken back by the frames above it.

* `State.unwind`: all frames of a stack that take a change back, from the top on;
* `Machine.Logged`: the machines of a search, with the state in which each frame was put down;
* `Restores`: a stack that leads back to the states of a log, **`Restores.goes`**: turn after turn;
* **`undo_restores`**: so frames for work are taken off in the state of the log, all changes can be
  taken back at any time, and a search that fails leaves nothing behind.
-/

namespace PatternGraph

/-- Takes back every change that the stack has a frame for, from the top on. -/
def State.unwind (st : State) : List Frame → State
  | [] => st
  | .undo u :: stack => (st.undo u).unwind stack
  | _ :: stack => st.unwind stack

/-- The machines that a search comes to. The log has an entry for each frame on the stack: the state
at the end of the turn that has put it there. -/
inductive Machine.Logged (g : Graph) (subject : Array Char) : Machine → List State → Prop
  | start : Logged g subject (.start g) [.initial g.size g.groups]
  | turn {m m' : Machine} {frame : Frame} {pushed below : List Frame} {st : State}
    {log : List State} : Logged g subject m (st :: log) → m.stack = frame :: below →
    m.turn g subject = .going m' → m'.stack = pushed ++ below →
    Logged g subject m' (List.replicate pushed.length m'.state ++ log)

/-- The stack leads back to the states of the log: each frame for work to its own, and all of it to
`bottom`. -/
def Restores (bottom : State) : State → List Frame → List State → Prop
  | st, [], [] => st = bottom
  | st, .undo u :: stack, _ :: log => Restores bottom (st.undo u) stack log
  | st, _ :: stack, logged :: log => st = logged ∧ Restores bottom st stack log
  | _, _, _ => False

section

variable {g : Graph} {subject : Array Char} {m m' : Machine} {bottom st : State}
  {stack : List Frame} {log : List State}

/-- **When all changes have been taken back the state is the one at the bottom.** -/
theorem Restores.unwind_eq (h : Restores bottom st stack log) : st.unwind stack = bottom := by
  induction stack generalizing st log with
  | nil =>
    match log, h with
    | [], h => exact h
  | cons frame stack ih =>
    match frame, log, h with
    | .undo _, _ :: _, h => exact ih h
    | .enter .., _ :: _, h | .resume .., _ :: _, h | .leave .., _ :: _, h => exact ih h.2

theorem Restores.head?_eq {frame : Frame} (hw : frame.IsWork)
    (h : Restores bottom st (frame :: stack) log) : log.head? = some st := by
  match frame, log, h with
  | .undo _, _, _ => exact hw.elim
  | .enter .., _ :: _, h | .resume .., _ :: _, h | .leave .., _ :: _, h =>
    exact congrArg some h.1.symm

theorem Restores.work (h : Restores bottom st stack log) : ∀ {work : List Frame},
    (∀ f ∈ work, f.IsWork) →
      Restores bottom st (work ++ stack) (List.replicate work.length st ++ log)
  | [], _ => h
  | f :: work, hw => by
    have hrest := h.work fun f hf => hw f (List.mem_cons_of_mem _ hf)
    have hf := hw f List.mem_cons_self
    match f, hf with
    | .enter .., _ | .resume .., _ | .leave .., _ => exact ⟨rfl, hrest⟩

/-- Frames for work, above frames that take back what has been changed for them. -/
theorem Restores.pushed {undos : List Frame} {work : List Frame}
    (h : Restores bottom st (undos ++ stack) (List.replicate undos.length st ++ log))
    (hw : ∀ f ∈ work, f.IsWork) : Restores bottom st (work ++ undos ++ stack)
      (List.replicate (work ++ undos).length st ++ log) := by
  rw [List.append_assoc, List.length_append, ← List.replicate_append_replicate, List.append_assoc]
  exact h.work hw

/-- **A turn keeps the stack leading back to the log.** -/
theorem Restores.goes {frame : Frame} {pushed below : List Frame} {logged : State}
    (h : Restores bottom m.state m.stack (logged :: log)) (hm : m.stack = frame :: below)
    (hgoes : m.Goes g subject m') (hp : m'.stack = pushed ++ below) :
    Restores bottom m'.state m'.stack (List.replicate pushed.length m'.state ++ log) := by
  cases hgoes with
  | undo st u below =>
    cases hm
    obtain rfl : pushed = [] := List.append_left_eq_self.1 hp.symm
    exact h
  | refused st node offset below =>
    cases hm
    obtain rfl : pushed = [] := List.append_left_eq_self.1 hp.symm
    exact h.2
  | resume st next offset below =>
    cases hm
    obtain rfl := List.append_cancel_right hp
    exact Restores.work h.2 isWork_of_follow
  | leave st node exit offset below =>
    cases hm
    obtain rfl : [_, _] = pushed := List.append_cancel_right hp
    refine ⟨rfl, ?_⟩
    change Restores bottom ((st.setCount node 0).undo (.restoreCount node (st.count node))) below
      log
    rw [State.undo_setCount]
    exact h.2
  | @entered st marked node offset n work below hn ho hmark hw =>
    cases hm
    obtain rfl : work ++ [.undo (.unmark node offset)] = pushed :=
      List.append_cancel_right (by simpa using hp)
    have hundo : Restores bottom marked ([.undo (.unmark node offset)] ++ below)
        (List.replicate 1 marked ++ log) := by
      change Restores bottom (marked.undo (.unmark node offset)) below log
      rw [State.undo_mark? hmark]
      exact h.2
    simpa using hundo.pushed fun f hf => (hw f hf).isWork
  | @changed st marked st' node offset n u work below hn ho hmark hc hw =>
    cases hm
    obtain rfl : work ++ [.undo u, .undo (.unmark node offset)] = pushed :=
      List.append_cancel_right (by simpa using hp)
    have hundo : Restores bottom st' ([.undo u, .undo (.unmark node offset)] ++ below)
        (List.replicate 2 st' ++ log) := by
      change Restores bottom ((st'.undo u).undo (.unmark node offset)) below log
      rw [hc.undo_eq, State.undo_mark? hmark]
      exact h.2
    simpa using hundo.pushed fun f hf => (hw f hf).isWork

theorem Machine.Logged.restores (h : m.Logged g subject log) :
    Restores (.initial g.size g.groups) m.state m.stack log := by
  induction h with
  | start => exact ⟨rfl, rfl⟩
  | turn _ hm ht hp ih => exact ih.goes hm (goes_of_turn ht) hp

/-- What a turn puts on the stack lies above what it has left there. -/
theorem Machine.Goes.exists_pushed (h : m.Goes g subject m') :
    ∃ frame pushed below, m.stack = frame :: below ∧ m'.stack = pushed ++ below := by
  cases h with
  | undo st u below => exact ⟨_, [], below, rfl, rfl⟩
  | resume st next offset below => exact ⟨_, _, below, rfl, rfl⟩
  | leave st node exit offset below => exact ⟨_, [_, _], below, rfl, rfl⟩
  | refused st node offset below => exact ⟨_, [], below, rfl, rfl⟩
  | @entered _ _ _ _ _ work below =>
    exact ⟨_, work ++ [_], below, rfl, (List.append_assoc work [_] below).symm⟩
  | @changed _ _ _ _ _ _ _ work below =>
    exact ⟨_, work ++ [_, _], below, rfl, (List.append_assoc work [_, _] below).symm⟩

theorem Machine.Arises.exists_logged (h : m.Arises g subject) : ∃ log, m.Logged g subject log := by
  induction h with
  | start => exact ⟨_, .start⟩
  | turn _ ht ih =>
    obtain ⟨log, hlog⟩ := ih
    obtain ⟨frame, pushed, below, hm, hp⟩ := (goes_of_turn ht).exists_pushed
    have hr := hlog.restores
    rw [hm] at hr
    obtain ⟨st, log, rfl⟩ : ∃ st rest, log = st :: rest := by
      match frame, log, hr with
      | .undo _, st :: rest, _ | .enter .., st :: rest, _ | .resume .., st :: rest, _
      | .leave .., st :: rest, _ => exact ⟨st, rest, rfl⟩
    exact ⟨_, hlog.turn hm ht hp⟩

end

theorem Matcher.group?_ofGraph (g : Graph) (k : Nat) : (Matcher.ofGraph g).group? k = none := by
  rw [Matcher.ofGraph, Matcher.group?, State.group?, State.latest?, State.initial,
    Array.getElem?_replicate]
  split <;> rfl

/-- **What is taken back is exactly what was changed.** Every machine that a search comes to has a
log. A frame for work is taken off in the state that the log has for it, and all the changes that
the stack takes back lead to the state in which nothing has been done. So a search that fails ends
with an empty stack in that state, and the matcher is as if it had not run: no group has a span. -/
theorem undo_restores (g : Graph) (subject : String) :
    (∀ m : Machine, m.Arises g subject.toList.toArray →
      ∃ log, m.Logged g subject.toList.toArray log) ∧
    (∀ (m : Machine) (log : List State), m.Logged g subject.toList.toArray log →
      (∀ frame below, m.stack = frame :: below → frame.IsWork → log.head? = some m.state) ∧
        m.state.unwind m.stack = .initial g.size g.groups) ∧
    ∀ matcher : Matcher, matcher.graph = g → (matcher.run subject).1 = false →
      (∃ m : Machine, m.Arises g subject.toList.toArray ∧ m.stack = [] ∧
        (matcher.run subject).2.state = m.state) ∧
      (matcher.run subject).2 = .ofGraph g ∧ ∀ k, (matcher.run subject).2.group? k = none := by
  refine ⟨fun m hm => hm.exists_logged, fun m log hlog => ⟨fun frame below hs hw => ?_,
    hlog.restores.unwind_eq⟩, ?_⟩
  · have hr := hlog.restores
    rw [hs] at hr
    exact hr.head?_eq hw
  · rintro ⟨g, last⟩ rfl hfail
    obtain ⟨m, hm, ⟨hs, -, hrun⟩ | ⟨st, -, hrun⟩⟩ :=
      exists_ended (.start : (Machine.start g).Arises g subject.toList.toArray)
    · obtain ⟨log, hlog⟩ := hm.exists_logged
      have hstate : m.state = .initial g.size g.groups := by
        have := hlog.restores.unwind_eq
        rwa [hs] at this
      have hsearch : search g subject.toList.toArray = (false, m.state) := hrun
      have hback : (Matcher.run ⟨g, last⟩ subject).2 = .ofGraph g := by
        rw [Matcher.run, hsearch, hstate, Matcher.ofGraph]
      exact ⟨⟨m, hm, hs, by rw [Matcher.run, hsearch]⟩, hback,
        fun k => by rw [hback, Matcher.group?_ofGraph]⟩
    · have hsearch : search g subject.toList.toArray = (true, st) := hrun
      rw [Matcher.run, hsearch] at hfail
      cases hfail

/-- In `(a|b)` along `c` the second branch is taken off the stack when the first has failed, with
the group still open. Then that fails as well, and the group is gone. -/
theorem undo_restores_secondBranch : ∃ (g : Graph) (m : Machine) (log : List State),
    compile {} "(a|b)" = .ok g ∧ m.Logged g #['c'] log ∧
      (∃ below, m.stack = .resume [5] 0 :: below) ∧ log.head? = some m.state ∧
      m.state.captures = #[[⟨some 0, none⟩], [⟨some 0, none⟩]] ∧
      m.state.unwind m.stack = .initial g.size g.groups ∧
      ((Matcher.ofGraph g).run "c").2.group? 1 = none := by
  let g : Graph := Graph.ofPattern ⟨[[.atom (.group 1 [[.atom (.test (.literal 'a')) none],
    [.atom (.test (.literal 'b')) none]]) none]], 1⟩
  have hc : compile {} "(a|b)" = .ok g := by cbv
  have hfail : ((Matcher.ofGraph g).run "c").1 = false := by decide +kernel
  obtain ⟨-, hlogged, hmatcher⟩ := undo_restores g "c"
  have h0 : (Machine.start g).Logged g "c".toList.toArray _ := .start
  have h1 := h0.turn rfl rfl (rfl : _ = [_, _, _] ++ _)
  have h2 := h1.turn rfl rfl (rfl : _ = [_, _, _, _] ++ _)
  have h3 := h2.turn rfl rfl (rfl : _ = [_] ++ _)
  have h4 := h3.turn rfl rfl (rfl : _ = [] ++ _)
  obtain ⟨hhead, hback⟩ := hlogged _ _ h4
  exact ⟨g, _, _, hc, h4, ⟨_, rfl⟩, hhead _ _ rfl trivial, rfl, hback,
    (hmatcher (.ofGraph g) rfl hfail).2.2 1⟩

end PatternGraph
