import PatternGraph.Proofs.Search.Undoing

/-!
# Matchers that are used again

A matcher keeps all that its last run has worked with, and a clone takes over all of it. Where a
path has arrived nothing is taken back: marks, captures, counts and the stack stay as they are. It is
the next run that clears them before it begins, whatever it finds.

* `Machine.execute`: a run that also says what is left on the stack;
* `Context`: what a matcher keeps, `Context.reset`: what is cleared, **`Context.reset_eq`**;
* **`Context.run_eq`**: from any context a run does what it does in a new matcher;
* `Op`, `Op.act`, `poolAfter`: operations on any number of matchers over one graph;
* `lastSubjects`: what each of them has last run on, `Tells`: its spans are those of that run,
  **`Tells.act`**: operation by operation, **`tells_poolAfter`**: after any number of them;
* **`matchers_independent`**: matchers carry nothing over and do not disturb each other.
-/

namespace PatternGraph

/-! ## Runs and what they leave -/

/-- What is on the stack when the terminal has been entered and the path has arrived. -/
def Machine.left (m : Machine) : List Frame :=
  match m.stack with
  | .enter node offset :: below =>
    .undo (.restoreStop 0 ((m.state.latest? 0).bind Span.stop)) :: .undo (.unmark node offset) ::
      below
  | stack => stack

/-- Takes turns to the end of the search. The machine is left as it is then. -/
def Machine.execute (g : Graph) (subject : Array Char) (m : Machine) : Bool × Machine :=
  match _h : m.turn g subject with
  | .going m' => m'.execute g subject
  | .accepted st => (true, ⟨st, m.left⟩)
  | .exhausted st => (false, ⟨st, []⟩)
termination_by m.weight g subject
decreasing_by exact weight_turn_lt _h

/-- What is left on the stack makes no difference to what is found, or to the state. -/
theorem Machine.execute_eq (g : Graph) (subject : Array Char) (m : Machine) :
    ((m.execute g subject).1, (m.execute g subject).2.state) = m.run g subject := by
  fun_induction Machine.execute g subject m with
  | case1 m m' ht ih => rw [ih, run_eq_result m, ht, Turn.result]
  | case2 m st ht | case3 m st ht => rw [run_eq_result m, ht, Turn.result]

/-! ## Contexts -/

/-- What a matcher keeps from one run to the next. -/
structure Context where
  subject : Array Char
  machine : Machine

/-- The array is cut off or filled up with `x`, so that it has `n` entries. -/
def resized {α : Type} (n : Nat) (x : α) (xs : Array α) : Array α :=
  xs.take n ++ Array.replicate (n - xs.size) x

theorem map_resized {α β : Type} (n : Nat) (x : α) (xs : Array α) (y : β) :
    (resized n x xs).map (fun _ => y) = Array.replicate n y := by
  have hsize : min n xs.size + (n - xs.size) = n := by omega
  rw [resized, Array.map_const', Array.size_append, Array.size_extract, Array.size_replicate,
    Nat.sub_zero, hsize]

theorem resized_empty {α : Type} (n : Nat) (x : α) : resized n x #[] = Array.replicate n x := by
  simp [resized]

namespace Context

/-- Nothing kept, with no room for anything. -/
def empty : Context := ⟨#[], ⟨⟨#[], #[], #[]⟩, []⟩⟩

/-- Clears what the last run has left, and makes ready for another one along the graph. -/
def reset (g : Graph) (subject : String) (c : Context) : Context where
  subject := subject.toList.toArray
  machine :=
    { state :=
        { marks := (resized g.size [] c.machine.state.marks).map fun _ => []
          captures := (resized (g.groups + 1) [] c.machine.state.captures).map fun _ => []
          counts := resized g.size 0 #[] }
      stack := [] }

/-- The context of a matcher that has not run. -/
def new (g : Graph) : Context := empty.reset g ""

/-- Matches the whole subject, with whatever the context holds. -/
def run (g : Graph) (subject : String) (c : Context) : Bool × Context :=
  let ready := c.reset g subject
  let (matched, machine) := Machine.execute g ready.subject
    { ready.machine with stack := .enter g.start 0 :: ready.machine.stack }
  (matched, { ready with machine })

/-- The span of a group in the last run. -/
def group? (c : Context) (group : Nat) : Option Span := c.machine.state.group? group

variable (g : Graph) (subject : String) (c : Context)

/-- **Whatever a context holds, nothing of it is left.** -/
theorem reset_eq :
    c.reset g subject = ⟨subject.toList.toArray, ⟨.initial g.size g.groups, []⟩⟩ := by
  simp only [reset, map_resized, resized_empty, State.initial]

theorem state_new : (new g).machine.state = (Matcher.ofGraph g).state := by
  rw [new, reset_eq, Matcher.ofGraph]

/-- **From any context a run does what it does in a new matcher.** -/
theorem run_eq : ((c.run g subject).1, (c.run g subject).2.machine.state) =
    (((Matcher.ofGraph g).run subject).1, ((Matcher.ofGraph g).run subject).2.state) := by
  simp only [run, reset_eq]
  exact Machine.execute_eq g _ _

end Context

/-! ## Operations -/

/-- What is done with matchers over one graph. They are numbered as they come into being. -/
inductive Op where
  /-- One more matcher, which has not run. -/
  | new
  /-- One more matcher, which takes over what another one keeps. -/
  | clone (i : Nat)
  /-- A matcher runs on a subject. -/
  | run (i : Nat) (subject : String)

/-- Does the operation, and says whether the subject has matched if it is a run. -/
def Op.act (g : Graph) (pool : List Context) : Op → Option Bool × List Context
  | .new => (none, pool ++ [.new g])
  | .clone i => (none, pool ++ pool[i]?.toList)
  | .run i subject =>
    match pool[i]? with
    | none => (none, pool)
    | some c => (some (c.run g subject).1, pool.set i (c.run g subject).2)

/-- The matchers after these operations, of which there were none before. -/
def poolAfter (g : Graph) (ops : List Op) : List Context :=
  ops.foldl (fun pool op => (op.act g pool).2) []

/-- What the matchers have last run on, after one more operation. -/
def Op.record (last : List (Option String)) : Op → List (Option String)
  | .new => last ++ [none]
  | .clone i => last ++ last[i]?.toList
  | .run i subject => last.set i (some subject)

/-- The subject on which each matcher has last run, or which its source had last run on when it was
cloned. -/
def lastSubjects (ops : List Op) : List (Option String) := ops.foldl Op.record []

/-- A new matcher, after one run on the subject if there is one. -/
def lastRun (g : Graph) : Option String → Matcher
  | none => .ofGraph g
  | some subject => ((Matcher.ofGraph g).run subject).2

/-- Each matcher is as a new one would be that has only run on its last subject. -/
structure Tells (g : Graph) (pool : List Context) (last : List (Option String)) : Prop where
  length_eq : pool.length = last.length
  state_eq : ∀ (i : Nat) (c : Context) (s : Option String), pool[i]? = some c →
    last[i]? = some s → c.machine.state = (lastRun g s).state

section

variable {g : Graph} {pool : List Context} {last : List (Option String)} {c : Context}
  {s : Option String} {i : Nat}

theorem Tells.exists_last (h : Tells g pool last) (hc : pool[i]? = some c) :
    ∃ s, last[i]? = some s := by
  have hi := (List.getElem?_eq_some_iff.1 hc).1
  exact ⟨_, List.getElem?_eq_getElem (h.length_eq ▸ hi)⟩

theorem Tells.append (h : Tells g pool last) (hc : c.machine.state = (lastRun g s).state) :
    Tells g (pool ++ [c]) (last ++ [s]) := by
  refine ⟨by rw [List.length_append, List.length_append, h.length_eq]; rfl, fun i d t hd ht => ?_⟩
  rcases Nat.lt_or_ge i pool.length with hi | hi
  · rw [List.getElem?_append_left hi] at hd
    rw [List.getElem?_append_left (h.length_eq ▸ hi)] at ht
    exact h.state_eq i d t hd ht
  · rw [List.getElem?_append_right hi] at hd
    rw [List.getElem?_append_right (h.length_eq ▸ hi), ← h.length_eq] at ht
    rw [List.mem_singleton.1 (List.mem_of_getElem? hd),
      List.mem_singleton.1 (List.mem_of_getElem? ht)]
    exact hc

theorem Tells.set (h : Tells g pool last) (hc : c.machine.state = (lastRun g s).state) (i : Nat) :
    Tells g (pool.set i c) (last.set i s) := by
  refine ⟨by rw [List.length_set, List.length_set, h.length_eq], fun j d t hd ht => ?_⟩
  by_cases hij : i = j
  · subst hij
    have hi := (List.getElem?_eq_some_iff.1 hd).1
    rw [List.length_set] at hi
    rw [List.getElem?_set_self hi] at hd
    rw [List.getElem?_set_self (h.length_eq ▸ hi)] at ht
    cases hd
    cases ht
    exact hc
  · rw [List.getElem?_set_ne hij] at hd ht
    exact h.state_eq j d t hd ht

/-- **An operation keeps the matchers as they should be.** -/
theorem Tells.act (h : Tells g pool last) (op : Op) :
    Tells g (op.act g pool).2 (op.record last) := by
  cases op with
  | new => exact h.append (Context.state_new g)
  | clone i =>
    rw [Op.act, Op.record]
    cases hc : pool[i]? with
    | none =>
      have hi : last.length ≤ i := h.length_eq ▸ List.getElem?_eq_none_iff.1 hc
      rw [List.getElem?_eq_none hi]
      simpa using h
    | some c =>
      obtain ⟨s, hs⟩ := h.exists_last hc
      rw [hs]
      exact h.append (h.state_eq i c s hc hs)
  | run i subject =>
    rw [Op.act, Op.record]
    cases hc : pool[i]? with
    | none =>
      have hi : last.length ≤ i := h.length_eq ▸ List.getElem?_eq_none_iff.1 hc
      rw [List.set_eq_of_length_le hi]
      exact h
    | some c => exact h.set (Prod.mk.inj (Context.run_eq g subject c)).2 i

theorem act_of_forall_ne {op : Op} (hop : ∀ subject, op ≠ .run i subject)
    (hc : pool[i]? = some c) : (op.act g pool).2[i]? = some c := by
  have hi := (List.getElem?_eq_some_iff.1 hc).1
  cases op with
  | new | clone => exact (List.getElem?_append_left hi).trans hc
  | run j subject =>
    rw [Op.act]
    split
    · exact hc
    · have hji : j ≠ i := fun h => hop subject (h ▸ rfl)
      exact (List.getElem?_set_ne hji).trans hc

theorem foldl_act_of_forall_ne {ops : List Op} (hops : ∀ subject, .run i subject ∉ ops)
    (hc : pool[i]? = some c) :
    (ops.foldl (fun pool op => (op.act g pool).2) pool)[i]? = some c := by
  induction ops generalizing pool with
  | nil => exact hc
  | cons op ops ih =>
    have hop : ∀ subject, op ≠ .run i subject :=
      fun subject h => hops subject (h ▸ List.mem_cons_self)
    exact ih (fun subject h => hops subject (List.mem_cons_of_mem _ h)) (act_of_forall_ne hop hc)

end

/-- **After any operations the matchers are as they should be.** -/
theorem tells_poolAfter (g : Graph) (ops : List Op) :
    Tells g (poolAfter g ops) (lastSubjects ops) := by
  have hfold : ∀ (ops : List Op) {pool : List Context} {last : List (Option String)},
      Tells g pool last →
        Tells g (ops.foldl (fun pool op => (op.act g pool).2) pool) (ops.foldl Op.record last) := by
    intro ops
    induction ops with
    | nil => exact fun h => h
    | cons op ops ih => exact fun h => ih (h.act op)
  exact hfold ops ⟨rfl, fun i c s hc => by cases hc⟩

theorem group?_lastRun_eq_none {g : Graph} {last : Option String}
    (h : ∀ subject ∈ last, ((Matcher.ofGraph g).run subject).1 = false) (k : Nat) :
    (lastRun g last).group? k = none := by
  cases last with
  | none => exact Matcher.group?_ofGraph g k
  | some subject =>
    have hfail := h subject rfl
    have hback : (lastRun g (some subject)).state = (Matcher.ofGraph g).state := by
      simp only [lastRun, Matcher.run, Matcher.ofGraph, search_eq_descend] at hfail ⊢
      split at hfail
      · cases hfail
      · rfl
    rw [Matcher.group?, hback]
    exact Matcher.group?_ofGraph g k

/-- **Matchers carry nothing from one run to the next and do not disturb each other.** Whatever has
been done with any number of matchers over a graph, a run answers as that of a new matcher on its
subject alone, has its spans, and changes no other matcher. The spans of each matcher are those that
a new one has after its last run alone, and there are none if it has not run or that run has failed.
As long as a matcher does not run it stays as it is, whatever is done with others, and a clone
begins as its source is. -/
theorem matchers_independent (g : Graph) (ops : List Op) :
    (∀ i < (poolAfter g ops).length, ∀ subject, ∃ c : Context,
      (Op.run i subject).act g (poolAfter g ops) =
        (some ((Matcher.ofGraph g).run subject).1, (poolAfter g ops).set i c) ∧
      ∀ k, c.group? k = ((Matcher.ofGraph g).run subject).2.group? k) ∧
    (∀ (i : Nat) (c : Context), (poolAfter g ops)[i]? = some c →
      ∃ last, (lastSubjects ops)[i]? = some last ∧
        (∀ k, c.group? k = (lastRun g last).group? k) ∧
        ((∀ subject ∈ last, ((Matcher.ofGraph g).run subject).1 = false) →
          ∀ k, c.group? k = none)) ∧
    (∀ (i : Nat) (c : Context), (poolAfter g ops)[i]? = some c →
      ∀ later : List Op, (∀ subject, .run i subject ∉ later) →
        (poolAfter g (ops ++ later))[i]? = some c) ∧
    ∀ (i : Nat) (c : Context), (poolAfter g ops)[i]? = some c →
      (poolAfter g (ops ++ [.clone i]))[(poolAfter g ops).length]? = some c := by
  have htells := tells_poolAfter g ops
  refine ⟨fun i hi subject => ?_, fun i c hc => ?_, fun i c hc later hlater => ?_, fun i c hc => ?_⟩
  · obtain ⟨hmatched, hstate⟩ := Prod.mk.inj (Context.run_eq g subject (poolAfter g ops)[i])
    refine ⟨((poolAfter g ops)[i].run g subject).2, ?_, fun k => ?_⟩
    · rw [Op.act, List.getElem?_eq_getElem hi, ← hmatched]
    · rw [Context.group?, hstate, Matcher.group?]
  · obtain ⟨last, hlast⟩ := htells.exists_last hc
    have hgroup : ∀ k, c.group? k = (lastRun g last).group? k := fun k => by
      rw [Context.group?, htells.state_eq i c last hc hlast, Matcher.group?]
    refine ⟨last, hlast, hgroup, fun hfail k => ?_⟩
    rw [hgroup, group?_lastRun_eq_none hfail]
  · rw [poolAfter, List.foldl_append]
    exact foldl_act_of_forall_ne hlater hc
  · rw [poolAfter, List.foldl_append]
    show (poolAfter g ops ++ (poolAfter g ops)[i]?.toList)[(poolAfter g ops).length]? = some c
    rw [hc, Option.toList_some, List.getElem?_append_right (Nat.le_refl _), Nat.sub_self]
    rfl

/-- The graph for `(a)|b`. -/
def groupOrOther : Graph :=
  .ofPattern ⟨[[.atom (.group 1 [[.atom (.test (.literal 'a')) none]]) none],
    [.atom (.test (.literal 'b')) none]], 1⟩

/-- A matcher for `(a)|b` runs on `a`, is cloned, and runs on `b`. The clone still has the group,
the first one has only the whole match. When the clone has failed on `c` it has nothing. -/
theorem matchers_independent_session : ∃ (first second third : Context),
    compile {} "(a)|b" = .ok groupOrOther ∧
      (poolAfter groupOrOther [.new, .run 0 "a", .clone 0, .run 0 "b"])[0]? = some first ∧
      (poolAfter groupOrOther [.new, .run 0 "a", .clone 0, .run 0 "b"])[1]? = some second ∧
      (poolAfter groupOrOther [.new, .run 0 "a", .clone 0, .run 0 "b", .run 1 "c"])[1]? =
        some third ∧
      first.group? 0 = some ⟨some 0, some 1⟩ ∧ first.group? 1 = none ∧
      second.group? 1 = some ⟨some 0, some 1⟩ ∧ ∀ k, third.group? k = none := by
  have hc : compile {} "(a)|b" = .ok groupOrOther := by with_unfolding_all rfl
  have ha : ((Matcher.ofGraph groupOrOther).run "a").2.group? 1 = some ⟨some 0, some 1⟩ := by
    decide +kernel
  have hb : ((Matcher.ofGraph groupOrOther).run "b").2.group? 0 = some ⟨some 0, some 1⟩ ∧
      ((Matcher.ofGraph groupOrOther).run "b").2.group? 1 = none := by decide +kernel
  have hfail : ((Matcher.ofGraph groupOrOther).run "c").1 = false := by decide +kernel
  obtain ⟨-, hspans, -, -⟩ :=
    matchers_independent groupOrOther [.new, .run 0 "a", .clone 0, .run 0 "b"]
  obtain ⟨-, hspans', -, -⟩ :=
    matchers_independent groupOrOther [.new, .run 0 "a", .clone 0, .run 0 "b", .run 1 "c"]
  obtain ⟨_, hlast, hfirst, -⟩ := hspans 0 _ rfl
  obtain ⟨_, hlast', hsecond, -⟩ := hspans 1 _ rfl
  obtain ⟨_, hlast'', -, hthird⟩ := hspans' 1 _ rfl
  cases hlast
  cases hlast'
  cases hlast''
  refine ⟨_, _, _, hc, rfl, rfl, rfl, (hfirst 0).trans hb.1, (hfirst 1).trans hb.2,
    (hsecond 1).trans ha, hthird fun subject h => ?_⟩
  cases Option.mem_some.1 h
  exact hfail

end PatternGraph
