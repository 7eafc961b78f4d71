import PatternGraph.Proofs.Search.Held
import PatternGraph.Proofs.Search.Pending

/-!
# Repetitions count afresh

One counter serves every entry of its repetition. On each way it holds the passes since the way has
last come into the loop, and nothing where the way is elsewhere. So the bounds decide about these
passes alone, whatever loops there are around, and whatever has been tried and taken back before.

* `Stay`: the places that a way has passed since it came into a loop;
* `Afresh`: the counter holds the passes of the stay, **`Afresh.move`**: move by move,
  **`Passes.afresh`**: on every way from the start;
* `Bounds.frames`: what a repetition puts on the stack after so many passes;
* **`counts_afresh`**: whenever a node is entered, the counters hold what they should.
-/

namespace PatternGraph

/-! ## Stays -/

/-- The way has come into the loop at the first node of its body, from a node before it, and has
passed the places of `stay` since, the latest first. Now it is at `p`, which is in the loop too. -/
structure Stay (ns : Array Node) (r n : Nat) (stay before : List Place) (p : Place) : Prop where
  inside : ∀ q ∈ p :: stay, InLoop r n q.node
  first : (p :: stay).getLast?.map Place.node = some n
  entered : ∃ q rest nd, before = q :: rest ∧ ¬ InLoop r n q.node ∧ ns[q.node]? = some nd ∧
    n ∈ nd.onto

/-- The passes that are complete when the way is at these places: so often it has come to the node
that counts. -/
def passesAt (r : Nat) (places : List Place) : Nat := places.countP (·.node = r)

/-- The counter holds nothing where the way is not in the loop, and else the passes of the stay. -/
structure Afresh (ns : Array Node) (r n : Nat) (passed : List Place) (p : Place) (mem : Memory) :
    Prop where
  outside : ¬ InLoop r n p.node → mem.counts r = 0
  inside : InLoop r n p.node → ∃ stay before, passed = stay ++ before ∧
    Stay ns r n stay before p ∧ mem.counts r = passesAt r stay

section

variable {ns : Array Node} {r n : Nat} {a : Atom} {stay before : List Place} {p q : Place}

theorem passesAt_cons_self (r o : Nat) (places : List Place) :
    passesAt r (⟨r, o⟩ :: places) = passesAt r places + 1 := List.countP_cons_of_pos (by simp)

theorem passesAt_cons_of_ne (h : p.node ≠ r) (places : List Place) :
    passesAt r (p :: places) = passesAt r places := List.countP_cons_of_neg (by simpa using h)

theorem Stay.cons (h : Stay ns r n stay before p) (hq : InLoop r n q.node) :
    Stay ns r n (p :: stay) before q := by
  refine ⟨fun x hx => ?_, ?_, h.entered⟩
  · rcases List.mem_cons.1 hx with rfl | hx
    · exact hq
    · exact h.inside x hx
  · rw [List.getLast?_cons_cons]
    exact h.first

theorem HasBody.inLoop_iff (h : HasBody ns r n a) {v : Nat} :
    InLoop r n v ↔ v = r ∨ n ≤ v ∧ v < a.after n := by
  have hr := h.2.1
  unfold InLoop
  omega

theorem HasBody.not_inLoop_exit (h : HasBody ns r n a) : ¬ InLoop r n (r - 1) := by
  have hlt := h.lt
  unfold InLoop
  omega

theorem HasBody.not_inLoop_of_lt (h : HasBody ns r n a) {v : Nat} (hv : v < 2) :
    ¬ InLoop r n v := by
  have hlt := h.lt
  have hn := h.1
  unfold InLoop
  omega

end

/-! ## Ways from the start -/

section

variable {g : Graph} {subject : Array Char} {r n : Nat} {a : Atom} {passed : List Place}
  {p q : Place} {mem mem' : Memory}

theorem Move.counts_of_ne (h : Move g subject p mem q mem') (hp : p.node ≠ r) :
    mem'.counts r = mem.counts r := by
  cases h with
  | loop | leave => exact Memory.counts_setCount_of_ne _ (Ne.symm hp) _
  | _ => rfl

theorem Move.of_counter (hbody : HasBody g.nodes r n a) (h : Move g subject p mem q mem')
    (hp : p.node = r) : q.node = n ∧ mem'.counts r = mem.counts r + 1 ∨
      q.node = r - 1 ∧ mem'.counts r = 0 := by
  obtain ⟨b, hb⟩ := hbody.2.2.2
  cases h with
  | loop hn hq =>
    obtain rfl := hp
    cases hn.symm.trans hb
    exact .inl ⟨List.mem_singleton.1 hq, Memory.counts_setCount_self _ _ _⟩
  | leave hn =>
    obtain rfl := hp
    cases hn.symm.trans hb
    exact .inr ⟨rfl, Memory.counts_setCount_self _ _ _⟩
  | read hn | join hn | openGroup hn | closeGroup hn | copy hn | anchor hn =>
    obtain rfl := hp
    cases hn.symm.trans hb

/-- **Along a move a counter goes on to hold the passes of the stay.** -/
theorem Afresh.move (hbody : HasBody g.nodes r n a) (henter : EntersAt g.nodes r n 0 g.size)
    (h : Afresh g.nodes r n passed p mem) (hm : Move g subject p mem q mem') :
    Afresh g.nodes r n (p :: passed) q mem' := by
  by_cases hp : InLoop r n p.node
  · obtain ⟨stay, before, rfl, hstay, hcounts⟩ := h.inside hp
    by_cases hpr : p.node = r
    · rcases hm.of_counter hbody hpr with ⟨hq, hcount⟩ | ⟨hq, hcount⟩
      · -- one more pass is complete, and the next one begins
        have hin : InLoop r n q.node := .inr ⟨Nat.le_of_eq hq.symm, by
          have hr := hbody.2.1
          have ha := a.lt_after n
          omega⟩
        refine ⟨fun hout => absurd hin hout, fun _ => ⟨p :: stay, before, rfl, hstay.cons hin, ?_⟩⟩
        obtain ⟨v, o⟩ := p
        obtain rfl : v = r := hpr
        rw [hcount, hcounts, passesAt_cons_self]
      · have hout : ¬ InLoop r n q.node := hq ▸ hbody.not_inLoop_exit
        exact ⟨fun _ => hcount, fun hin => absurd hin hout⟩
    · -- inside the body
      obtain ⟨nd, hn, hq⟩ := hm.exists_onto
      obtain ⟨h1, h2⟩ := (hbody.inLoop_iff.1 hp).resolve_left hpr
      have hin : InLoop r n q.node := hbody.inLoop_iff.2 (hbody.onto h1 h2 hn hq)
      refine ⟨fun hout => absurd hin hout, fun _ => ⟨p :: stay, before, rfl, hstay.cons hin, ?_⟩⟩
      rw [hm.counts_of_ne hpr, hcounts, passesAt_cons_of_ne hpr]
  · have hpr : p.node ≠ r := fun he => hp (.inl he)
    have hcount : mem'.counts r = 0 := (hm.counts_of_ne hpr).trans (h.outside hp)
    refine ⟨fun _ => hcount, fun hin => ⟨[], p :: passed, rfl, ?_, hcount⟩⟩
    -- the way comes into the loop, which is possible at one node only
    obtain ⟨nd, hn, hq⟩ := hm.exists_onto
    have hsize : p.node < g.size := (Array.getElem?_eq_some_iff.1 hn).1
    have hfirst : q.node = n :=
      (henter p.node q.node nd (Nat.zero_le _) hsize hn hq hin).resolve_left hp
    refine ⟨fun x hx => ?_, ?_, p, passed, nd, rfl, hp, hn, hfirst ▸ hq⟩
    · rw [List.mem_singleton.1 hx]
      exact hin
    · rw [List.getLast?_singleton, Option.map_some, hfirst]

/-- **On every way from the start a counter holds the passes of the stay.** -/
theorem Passes.afresh (hbody : HasBody g.nodes r n a) (henter : EntersAt g.nodes r n 0 g.size)
    (hstart : ¬ InLoop r n g.start) (h : Passes g subject passed p mem) :
    Afresh g.nodes r n passed p mem := by
  induction h with
  | start => exact ⟨fun _ => rfl, fun hin => absurd hin hstart⟩
  | move _ hm ih => exact ih.move hbody henter hm

end

/-! ## The stacks of a search -/

/-- What is put on the stack behind a repetition when so many passes are complete. -/
def Bounds.frames (b : Bounds) (passes node exit offset : Nat) (next : List Nat)
    (stack : List Frame) : List Frame :=
  let leaving := if b.satisfied passes then .leave node exit offset :: stack else stack
  if b.exceeded passes then stack
  else if b.mayLoop passes then follow next offset leaving
  else leaving

/-- A repetition that is entered counts one more pass, up to the limit, and tests what it has then
counted. -/
theorem turn_of_repetition {g : Graph} {subject : Array Char} {m : Machine} {r o exit : Nat}
    {b : Bounds} {next : List Nat} {below : List Frame} {marked : State}
    (hr : g.nodes[r]? = some ⟨.repetition b exit, next⟩) (hs : m.stack = .enter r o :: below)
    (ho : o ≤ subject.size) (hmark : m.state.mark? r o = some marked) :
    m.turn g subject = .going ⟨marked.setCount r (min countLimit (m.state.count r + 1)),
      b.frames (min countLimit (m.state.count r + 1)) r exit o next
        (.undo (.restoreCount r (m.state.count r)) :: .undo (.unmark r o) :: below)⟩ := by
  have hcount : m.state.count r = marked.count r := by
    rw [State.count, State.count, (State.eq_of_mark? hmark).2]
  rw [hcount, Machine.turn, hs]
  simp only [enter, hr, if_pos ho, hmark]
  rfl

/-- **Repetitions count afresh on every entry.** Whenever a node is entered, along the graph of any
pattern and after any amount of backtracking, the counter of a repetition holds nothing unless the
path is in its loop. There it holds the passes that are complete since the path has last come into
the loop from the node before it, as far as can be counted. When the node that counts is entered
itself, it tests this number of passes, the one that is complete now included, and its bounds decide
as if there were no limit. -/
theorem counts_afresh {limits : Limits} {pattern : String} {g : Graph}
    (h : compile limits pattern = .ok g) {subject : Array Char} {m : Machine}
    (hm : m.Arises g subject) {v o : Nat} {below : List Frame} (hs : m.stack = .enter v o :: below)
    {r exit : Nat} {b : Bounds} {next : List Nat}
    (hr : g.nodes[r]? = some ⟨.repetition b exit, next⟩) :
    ∃ n a, HasBody g.nodes r n a ∧
      (m.state.count r ≠ 0 → InLoop r n v ∧ ∃ q ∈ (trail below).head?, InLoop r n q.node) ∧
      (InLoop r n v → ∃ stay before, trail below = stay ++ before ∧
        Stay g.nodes r n stay before ⟨v, o⟩ ∧
        m.state.count r = min countLimit (passesAt r stay) ∧
        ∀ passes marked, v = r → passes = passesAt r (⟨v, o⟩ :: stay) →
          m.state.mark? v o = some marked →
          min countLimit (m.state.count r + 1) = min countLimit passes ∧
          m.turn g subject = .going ⟨marked.setCount r (min countLimit passes),
            b.frames passes r exit o next
              (.undo (.restoreCount r (m.state.count r)) :: .undo (.unmark r o) :: below)⟩) := by
  have hfits := fits_of_compile h
  have hstacked := stacked_of_arises (wellFormed_of_compile h) hfits hm
  obtain ⟨p, -, rfl⟩ := exists_read_of_compile h
  rw [hs] at hstacked
  obtain ⟨mem, hpasses, htracks, -⟩ := hstacked.1.2 _ (List.mem_singleton.2 rfl)
  obtain ⟨n, a, hbody, henter⟩ := exists_hasBody_ofPattern hr
  have hafresh := hpasses.afresh hbody henter (hbody.not_inLoop_of_lt Nat.two_pos)
  have hcount := htracks.mirrors.count (Array.getElem?_eq_some_iff.1 hr).1
  refine ⟨n, a, hbody, fun hne => ?_, fun hin => ?_⟩
  · -- something is counted, so the stay is not empty
    have hcounts : mem.counts r ≠ 0 := fun h0 => hne (by rw [hcount, h0, Nat.min_zero])
    have hin : InLoop r n v := by
      by_contra hout
      exact hcounts (hafresh.outside hout)
    obtain ⟨stay, before, htrail, hstay, hpassed⟩ := hafresh.inside hin
    cases stay with
    | nil => exact absurd hpassed hcounts
    | cons q stay =>
      refine ⟨hin, q, ?_, hstay.inside q (List.mem_cons_of_mem _ List.mem_cons_self)⟩
      rw [htrail]
      rfl
  · obtain ⟨stay, before, htrail, hstay, hpassed⟩ := hafresh.inside hin
    rw [hpassed] at hcount
    refine ⟨stay, before, htrail, hstay, hcount, ?_⟩
    rintro passes marked rfl rfl hmark
    have htested : min countLimit (m.state.count v + 1) =
        min countLimit (passesAt v (⟨v, o⟩ :: stay)) := by
      rw [passesAt_cons_self, hcount]
      omega
    have hbounds : b.Fit := hfits.kinds v _ hr
    have hwithin := htracks.within v b exit next hr
    rw [hpassed] at hwithin
    refine ⟨htested, ?_⟩
    rw [turn_of_repetition hr hs htracks.reaches.offset_le hmark, htested, passesAt_cons_self,
      Bounds.frames, Bounds.frames, exceeded_min hbounds hwithin, mayLoop_min hbounds hwithin,
      satisfied_min hbounds]

/-- What is read of `(a{2}){2}`. -/
def twoPairs : Pattern :=
  ⟨[[.atom (.group 1 [[.atom (.test (.literal 'a')) (some (.counted ⟨2, some 2⟩))]])
    (some (.counted ⟨2, some 2⟩))]], 1⟩

/-- In `(a{2}){2}` along `aaaa` the inner repetition has been entered for the second time. What is
tested at the end of the second pass is two, though two passes have been made on the first entry. -/
theorem counts_afresh_secondEntry : ∃ (m : Machine) (below : List Frame),
    compile {} "(a\x7b2\x7d)\x7b2\x7d" = .ok (.ofPattern twoPairs) ∧
      m.Arises (.ofPattern twoPairs) #['a', 'a', 'a', 'a'] ∧ m.stack = .enter 6 4 :: below ∧
      m.state.count 6 = 1 ∧ m.state.count 8 = 1 ∧
      trail below = [⟨4, 3⟩, ⟨6, 3⟩, ⟨4, 2⟩, ⟨2, 2⟩, ⟨8, 2⟩, ⟨3, 2⟩, ⟨5, 2⟩, ⟨6, 2⟩, ⟨4, 1⟩, ⟨6, 1⟩,
        ⟨4, 0⟩, ⟨2, 0⟩, ⟨0, 0⟩] ∧
      ∃ n stay before, trail below = stay ++ before ∧
        Stay (Graph.ofPattern twoPairs).nodes 6 n stay before ⟨6, 4⟩ ∧
        m.state.count 6 = min countLimit (passesAt 6 stay) ∧
        min countLimit (m.state.count 6 + 1) = min countLimit (passesAt 6 (⟨6, 4⟩ :: stay)) := by
  have hc : compile {} "(a\x7b2\x7d)\x7b2\x7d" = .ok (.ofPattern twoPairs) := by
    with_unfolding_all rfl
  have hturns : (Machine.start (.ofPattern twoPairs)).turns (.ofPattern twoPairs)
      #['a', 'a', 'a', 'a'] 14 = .going
        ⟨⟨#[[0], [], [2, 0], [2], [3, 2, 1, 0], [2], [3, 2, 1], [], [2]],
            #[[⟨some 0, none⟩], [⟨some 2, none⟩, ⟨some 0, some 2⟩]], #[0, 0, 0, 0, 0, 0, 1, 0, 1]⟩,
          [.enter 6 4, .undo (.unmark 4 3), .undo (.restoreCount 6 0), .undo (.unmark 6 3),
            .undo (.unmark 4 2), .undo (.dropSpan 1), .undo (.unmark 2 2),
            .undo (.restoreCount 8 0), .undo (.unmark 8 2), .undo (.restoreStop 1 none),
            .undo (.unmark 3 2), .undo (.unmark 5 2), .undo (.restoreCount 6 2),
            .undo (.restoreCount 6 1), .undo (.unmark 6 2), .undo (.unmark 4 1),
            .undo (.restoreCount 6 0), .undo (.unmark 6 1), .undo (.unmark 4 0),
            .undo (.dropSpan 1), .undo (.unmark 2 0), .undo (.dropSpan 0),
            .undo (.unmark 0 0)]⟩ := by
    with_unfolding_all rfl
  have hm := Machine.Arises.start.turns hturns
  obtain ⟨n, a, -, -, hcounter⟩ := counts_afresh hc hm rfl
    (rfl : (Graph.ofPattern twoPairs).nodes[6]? = some ⟨.repetition ⟨2, some 2⟩ 5, [4]⟩)
  obtain ⟨stay, before, htrail, hstay, hcount, hturn⟩ := hcounter (.inl rfl)
  have htested := (hturn _ _ rfl rfl rfl).1
  exact ⟨_, _, hc, hm, rfl, rfl, rfl, rfl, n, stay, before, htrail, hstay, hcount, htested⟩

end PatternGraph
