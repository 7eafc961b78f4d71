import Mathlib.Data.Finset.Prod
import Mathlib.Data.Option.Basic
import PatternGraph.Proofs.Search.Mirror

/-!
# The search as a recursive function

The search written as one would with calls in place of a stack: a place is marked, its node does
what it does, the successors are tried one after the other, and a call that finds nothing hands back
the state that it was given. There are no frames here and nothing is taken back.

* `Attempt`: the marked places, as a set, and the memory of the path;
* `NodeKind.effect?`: what a node does before its successors are tried;
* `tryMatch`, `tryEach`: the recursion, which ends because every call marks a place;
* `tryMatch_eq_of_not`: a call that finds nothing hands back what it was given;
* `tryMatch_of_effect`, `tryMatch_of_repetition`, **`tryMatch_of_moves`**: a call tries the moves of
  its place in order;
* `descend_rel_tryMatch`: the stack stands for the calls;
* **`search_eq_tryMatch`**: the search finds what the recursion finds, with the same captures.
-/

namespace PatternGraph

/-- The state of the recursion: the places that are being tried, and what has been captured and
counted on the way to them. -/
structure Attempt where
  marked : Finset Place
  memory : Memory

namespace Attempt

/-- No place is being tried. -/
def initial : Attempt := ⟨∅, .empty⟩

/-- The place is being tried as well. -/
def mark (st : Attempt) (p : Place) : Attempt := { st with marked := insert p st.marked }

/-- The places that may still be marked. -/
def unmarked (g : Graph) (size : Nat) (st : Attempt) : Finset (Nat × Nat) :=
  (Finset.range g.size ×ˢ Finset.range (size + 1)).filter fun x => (⟨x.1, x.2⟩ : Place) ∉ st.marked

theorem card_unmarked_mark_lt {g : Graph} {size : Nat} {st : Attempt} {p : Place} {nd : Node}
    (hn : g.nodes[p.node]? = some nd) (hp : p.offset ≤ size ∧ p ∉ st.marked) (mem : Memory) :
    (unmarked g size ⟨(st.mark p).marked, mem⟩).card < (st.unmarked g size).card := by
  have hlt : p.node < g.size := (Array.getElem?_eq_some_iff.1 hn).1
  refine Finset.card_lt_card (Finset.ssubset_iff_of_subset (fun x hx => ?_) |>.2
    ⟨(p.node, p.offset), ?_, ?_⟩)
  · simp only [unmarked, mark, Finset.mem_filter, Finset.mem_insert, not_or] at hx ⊢
    exact ⟨hx.1, hx.2.2⟩
  · simp only [unmarked, Finset.mem_filter, Finset.mem_product, Finset.mem_range]
    exact ⟨⟨hlt, Nat.lt_succ_of_le hp.1⟩, hp.2⟩
  · simp [unmarked, mark]

end Attempt

/-- What a node does before its successors are tried: the offset they are tried at, and the memory
then. There is none where the node refuses to go on. -/
def NodeKind.effect? (subject : Array Char) (offset : Nat) (mem : Memory) :
    NodeKind → Option (Nat × Memory)
  | .test t => if subject[offset]?.any t.accepts then some (offset + 1, mem) else none
  | .join => some (offset, mem)
  | .groupOpen group => some (offset, mem.openGroup group offset)
  | .groupClose group =>
    if mem.captures group = [] then none else some (offset, mem.closeGroup group offset)
  | .backref group => ((mem.latest group).copyEnd? subject offset).map fun stop => (stop, mem)
  | .anchor a => if a.holds subject offset then some (offset, mem) else none
  | .terminal | .repetition _ _ => none

/-- What is answered for a call in the state `st`, which is handed back if nothing has been found. -/
def Attempt.answer (st : Attempt) (found : Bool × Attempt) : Bool × Attempt :=
  if found.1 then found else (false, st)

mutual

/-- Tries to come from a place to the terminal at the end of the subject. -/
def tryMatch (g : Graph) (subject : Array Char) (p : Place) (st : Attempt) : Bool × Attempt :=
  match _hn : g.nodes[p.node]? with
  | none => (false, st)
  | some ⟨kind, next⟩ =>
    if _hp : p.offset ≤ subject.size ∧ p ∉ st.marked then
      match kind with
      | .terminal =>
        if st.memory.captures 0 ≠ [] ∧ p.offset = subject.size then
          (true, ⟨(st.mark p).marked, st.memory.closeGroup 0 p.offset⟩)
        else (false, st)
      | .repetition bounds exit =>
        let count := st.memory.counts p.node + 1
        if bounds.exceeded count then (false, st)
        else
          let again :=
            if bounds.mayLoop count then
              tryEach g subject next p.offset ⟨(st.mark p).marked, st.memory.setCount p.node count⟩
            else (false, st)
          st.answer (if again.1 then again
            else if bounds.satisfied count then
              tryMatch g subject ⟨exit, p.offset⟩
                ⟨(st.mark p).marked, st.memory.setCount p.node 0⟩
            else (false, st))
      | kind =>
        match kind.effect? subject p.offset st.memory with
        | none => (false, st)
        | some (offset, mem) => st.answer (tryEach g subject next offset ⟨(st.mark p).marked, mem⟩)
    else (false, st)
termination_by ((st.unmarked g subject.size).card, 0)
decreasing_by
  all_goals exact Prod.Lex.left _ _ (Attempt.card_unmarked_mark_lt _hn _hp _)

/-- Tries the nodes one after the other, each at this offset and in this state. -/
def tryEach (g : Graph) (subject : Array Char) (next : List Nat) (offset : Nat) (st : Attempt) :
    Bool × Attempt :=
  match next with
  | [] => (false, st)
  | node :: rest =>
    let found := tryMatch g subject ⟨node, offset⟩ st
    if found.1 then found else tryEach g subject rest offset st
termination_by ((st.unmarked g subject.size).card, next.length + 1)
decreasing_by
  · exact Prod.Lex.right _ (Nat.succ_pos _)
  · exact Prod.Lex.right _ (Nat.lt_succ_self _)

end

/-! ## What a call answers -/

/-- What a call has found, if it has found something. -/
def found? (answer : Bool × Attempt) : Option Attempt := if answer.1 then some answer.2 else none

section

variable {g : Graph} {subject : Array Char} {st : Attempt} {p : Place}

theorem Attempt.answer_eq (st : Attempt) (found : Bool × Attempt) :
    st.answer found = (found? found).elim (false, st) fun out => (true, out) := by
  obtain ⟨_ | _, out⟩ := found <;> rfl

theorem found?_elim (found : Option Attempt) :
    found? (found.elim (false, st) fun out => (true, out)) = found := by
  cases found <;> rfl

theorem found?_ite (first second : Bool × Attempt) :
    found? (if first.1 then first else second) = (found? first).or (found? second) := by
  obtain ⟨_ | _, out⟩ := first <;> rfl

theorem tryEach_eq (next : List Nat) (offset : Nat) (st : Attempt) :
    tryEach g subject next offset st =
      ((places next offset st.memory).findSome? fun x =>
        found? (tryMatch g subject x.1 ⟨st.marked, x.2⟩)).elim (false, st) fun out => (true, out) := by
  induction next with
  | nil => rw [tryEach]; rfl
  | cons node rest ih =>
    rw [tryEach, ih]
    show _ = (List.findSome? _ ((⟨node, offset⟩, st.memory) :: places rest offset st.memory)).elim _ _
    rw [List.findSome?_cons]
    rcases h : tryMatch g subject ⟨node, offset⟩ st with ⟨_ | _, out⟩ <;> simp [found?]

/-- The first of the moves from a place that leads to something, each of them tried with the place
marked. -/
def tryMoves (g : Graph) (subject : Array Char) (st : Attempt) (p : Place)
    (ways : List (Place × Memory)) : Option Attempt :=
  ways.findSome? fun x => found? (tryMatch g subject x.1 ⟨(st.mark p).marked, x.2⟩)

theorem found?_tryEach (next : List Nat) (offset : Nat) (mem : Memory) :
    found? (tryEach g subject next offset ⟨(st.mark p).marked, mem⟩) =
      tryMoves g subject st p (places next offset mem) := by
  rw [tryEach_eq, found?_elim]
  rfl

theorem answer_tryEach (next : List Nat) (offset : Nat) (mem : Memory) :
    st.answer (tryEach g subject next offset ⟨(st.mark p).marked, mem⟩) =
      (tryMoves g subject st p (places next offset mem)).elim (false, st) fun out => (true, out) := by
  rw [Attempt.answer_eq, found?_tryEach]

theorem tryMatch_eq_of_not (h : (tryMatch g subject p st).1 = false) :
    tryMatch g subject p st = (false, st) := by
  have hanswer : ∀ {found : Bool × Attempt}, (st.answer found).1 = false →
      st.answer found = (false, st) := by
    rintro ⟨_ | _, out⟩ hfound
    · rfl
    · cases hfound
  rw [tryMatch] at h ⊢
  split at h
  · rfl
  next kind next hn =>
  split at h
  · next hp =>
    rw [dif_pos hp]
    cases kind with
    | terminal =>
      dsimp only at h ⊢
      split at h
      · cases h
      · next hc => rw [if_neg hc]
    | repetition bounds exit =>
      dsimp only at h ⊢
      split at h
      · next he => rw [if_pos he]
      · next he => rw [if_neg he]; exact hanswer h
    | _ =>
      dsimp only at h ⊢
      split at h
      · rfl
      · exact hanswer h
  · next hp => rw [dif_neg hp]

theorem tryMatch_of_not (h : ¬ (p.offset ≤ subject.size ∧ p ∉ st.marked)) :
    tryMatch g subject p st = (false, st) := by
  rw [tryMatch]
  split
  · rfl
  · rw [dif_neg h]

theorem found?_tryMatch_of_marked (h : p ∈ st.marked) :
    found? (tryMatch g subject p st) = none := by
  rw [tryMatch_of_not fun hn => hn.2 h]
  rfl

theorem tryMatch_terminal {next : List Nat} (hn : g.nodes[p.node]? = some ⟨.terminal, next⟩)
    (hp : p.offset ≤ subject.size ∧ p ∉ st.marked) :
    tryMatch g subject p st =
      if st.memory.captures 0 ≠ [] ∧ p.offset = subject.size then
        (true, ⟨(st.mark p).marked, st.memory.closeGroup 0 p.offset⟩)
      else (false, st) := by
  rw [tryMatch]
  split
  · next hn' => rw [hn] at hn'; cases hn'
  · next hn' =>
    rw [hn] at hn'
    cases hn'
    rw [dif_pos hp]

section

variable {kind : NodeKind} {next : List Nat} (hn : g.nodes[p.node]? = some ⟨kind, next⟩)
  (ht : kind ≠ .terminal) (hr : ∀ bounds exit, kind ≠ .repetition bounds exit)

include hn ht hr

theorem tryMatch_of_effect (hp : p.offset ≤ subject.size ∧ p ∉ st.marked) :
    tryMatch g subject p st = ((kind.effect? subject p.offset st.memory).bind fun x =>
      tryMoves g subject st p (places next x.1 x.2)).elim (false, st) fun out => (true, out) := by
  rw [tryMatch]
  split
  · next hn' => rw [hn] at hn'; cases hn'
  · next hn' =>
    rw [hn] at hn'
    cases hn'
    rw [dif_pos hp]
    cases kind with
    | terminal => exact absurd rfl ht
    | repetition bounds exit => exact absurd rfl (hr bounds exit)
    | _ =>
      dsimp only
      split
      · next he => rw [he]; rfl
      · next offset mem he => rw [he]; exact answer_tryEach next offset mem

theorem moves_of_effect (hc : ∀ k, kind = .groupClose k → st.memory.captures k ≠ []) :
    moves g subject p st.memory = ((kind.effect? subject p.offset st.memory).map fun x =>
      places next x.1 x.2).getD [] := by
  obtain ⟨node, offset⟩ := p
  cases kind with
  | terminal => exact absurd rfl ht
  | repetition bounds exit => exact absurd rfl (hr bounds exit)
  | test t =>
    rw [moves_test hn]
    simp only [NodeKind.effect?]
    split <;> rfl
  | join => exact moves_join hn
  | groupOpen k => exact moves_groupOpen hn
  | groupClose k =>
    rw [moves_groupClose hn]
    simp only [NodeKind.effect?, if_neg (hc k rfl)]
    rfl
  | backref k =>
    rw [moves_backref hn]
    simp only [NodeKind.effect?]
    cases (st.memory.latest k).copyEnd? subject offset <;> rfl
  | anchor a =>
    rw [moves_anchor hn]
    simp only [NodeKind.effect?]
    split <;> rfl

end

theorem tryMatch_of_repetition {bounds : Bounds} {exit : Nat} {next : List Nat}
    (hn : g.nodes[p.node]? = some ⟨.repetition bounds exit, next⟩)
    (hp : p.offset ≤ subject.size ∧ p ∉ st.marked) :
    tryMatch g subject p st = (tryMoves g subject st p (moves g subject p st.memory)).elim
      (false, st) fun out => (true, out) := by
  obtain ⟨node, offset⟩ := p
  rw [tryMatch]
  split
  · next hn' => rw [hn] at hn'; cases hn'
  next hn' =>
  rw [hn] at hn'
  cases hn'
  rw [dif_pos hp, moves_repetition hn]
  by_cases he : bounds.exceeded (st.memory.counts node + 1)
  · simp only [if_pos he]; rfl
  simp only [if_neg he]
  rw [Attempt.answer_eq, found?_ite, tryMoves, List.findSome?_append]
  congr 2
  · by_cases hl : bounds.mayLoop (st.memory.counts node + 1)
    · rw [if_pos hl, if_pos hl]; exact found?_tryEach next _ _
    · rw [if_neg hl, if_neg hl]; rfl
  · by_cases hs : bounds.satisfied (st.memory.counts node + 1)
    · rw [if_pos hs, if_pos hs, List.findSome?_singleton]
    · rw [if_neg hs, if_neg hs]; rfl

/-- **A call tries the moves of its place in order**, and hands back what it was given if none of
them leads to anything. -/
theorem tryMatch_of_moves (hp : p.offset ≤ subject.size ∧ p ∉ st.marked)
    (ht : ∀ next, g.nodes[p.node]? ≠ some ⟨.terminal, next⟩)
    (hc : ∀ k next, g.nodes[p.node]? = some ⟨.groupClose k, next⟩ → st.memory.captures k ≠ []) :
    tryMatch g subject p st =
      (tryMoves g subject st p (moves g subject p st.memory)).elim (false, st)
        fun out => (true, out) := by
  cases hn : g.nodes[p.node]? with
  | none =>
    have hnone : moves g subject p st.memory = [] := by rw [moves, hn]
    rw [hnone, tryMatch]
    split
    · rfl
    · next hn' => rw [hn] at hn'; cases hn'
  | some nd =>
  obtain ⟨kind, next⟩ := nd
  by_cases hr : ∃ bounds exit, kind = .repetition bounds exit
  · obtain ⟨bounds, exit, rfl⟩ := hr
    exact tryMatch_of_repetition hn hp
  have hterm : kind ≠ .terminal := fun h => ht next (h ▸ hn)
  have hone : ∀ bounds exit, kind ≠ .repetition bounds exit := fun b e h => hr ⟨b, e, h⟩
  rw [tryMatch_of_effect hn hterm hone hp,
    moves_of_effect hn hterm hone fun k h => hc k next (h ▸ hn)]
  cases kind.effect? subject p.offset st.memory <;> rfl

/-! ## The search and the recursion -/

theorem rel_findSome? {α β γ δ : Type} {R : α → β → Prop} {S : γ → δ → Prop} {f : α → Option γ}
    {f' : β → Option δ} {as : List α} {bs : List β} (h : List.Forall₂ R as bs)
    (hf : ∀ a ∈ as, ∀ b, R a b → Option.Rel S (f a) (f' b)) :
    Option.Rel S (as.findSome? f) (bs.findSome? f') := by
  induction h with
  | nil => exact .none
  | @cons a b as bs hab _ ih =>
    have hrest := ih fun a ha => hf a (List.mem_cons_of_mem _ ha)
    have hfirst := hf a List.mem_cons_self b hab
    rw [List.findSome?_cons, List.findSome?_cons]
    generalize f a = found at hfirst ⊢
    generalize f' b = found' at hfirst ⊢
    cases hfirst with
    | some hs => exact .some hs
    | none => exact hrest

/-- **A descent finds what a call finds**, if the same places are marked. -/
theorem descend_rel_tryMatch {mem : Memory} {st : State} {marked : Finset Place} (hg : g.Fits)
    (h : Tracks g subject st p mem) (hm : ∀ q, st.Marked q ↔ q ∈ marked) :
    Option.Rel (fun (st : State) (out : Attempt) => Mirrors g st out.memory)
      (Visit.descend g subject ⟨p.node, p.offset, st⟩)
      (found? (tryMatch g subject p ⟨marked, mem⟩)) := by
  -- the induction is on the room for marks, which every place that is left has taken some of
  induction hr : room subject.size st.marks using Nat.strongRecOn
    generalizing st p mem marked with
  | _ r ih =>
  subst hr
  by_cases hp : p ∈ marked
  · rw [Visit.descend_of_ways (onward_of_marked h ((hm p).2 hp)),
      found?_tryMatch_of_marked hp]
    exact .none
  have hmark : ¬ st.Marked p := fun hmark => hp ((hm p).1 hmark)
  by_cases hterm : p = ⟨g.terminal, subject.size⟩
  · obtain ⟨st', ho, hmirrors⟩ := onward_of_terminal hg h hterm hmark
    have ht := hg.nodes_terminal
    subst hterm
    rw [Visit.descend_of_arrived ho, tryMatch_terminal ht ⟨Nat.le_refl _, hp⟩,
      if_pos ⟨h.reaches.captures_of_terminal hg ht, rfl⟩]
    exact .some hmirrors
  obtain ⟨ws, ho, hf⟩ := onward_of_tracks hg h hterm hmark
  rw [Visit.descend_of_ways ho]
  have hroom := Visit.room_lt_of_onward ho
  have hin : p.offset ≤ subject.size ∧ p ∉ marked := ⟨h.reaches.offset_le, hp⟩
  -- a way and the move it follows find the same
  have hway : ∀ w ∈ ws, ∀ x, w.Follows g subject st p x →
      Option.Rel (fun (st : State) (out : Attempt) => Mirrors g st out.memory)
        (w.descend g subject)
        (found? (tryMatch g subject x.1 ⟨insert p marked, x.2⟩)) := by
    rintro w hw ⟨q, mem'⟩ ⟨hplace, htracks, hmark'⟩
    have hmarked : ∀ q, w.state.Marked q ↔ q ∈ insert p marked := fun q => by
      rw [hmark' q, hm q, Finset.mem_insert]
    have hi := ih _ (hroom w hw) htracks hmarked rfl
    simp only at hplace
    rw [← hplace] at hi ⊢
    exact hi
  have hfound := rel_findSome? hf hway
  by_cases hk : ∃ next, g.nodes[p.node]? = some ⟨.terminal, next⟩
  · -- the terminal before the end of the subject
    obtain ⟨next, hn⟩ := hk
    have hoff : p.offset ≠ subject.size := fun he =>
      hterm (by rw [← hg.terminal p.node _ hn rfl, ← he])
    rw [tryMatch_terminal hn hin, if_neg fun hc => hoff hc.2]
    rw [moves, hn] at hfound
    exact hfound
  · rw [tryMatch_of_moves hin (fun next hn => hk ⟨next, hn⟩)
      fun k next hn => h.reaches.captures_of_groupClose hg hn]
    rw [found?_elim]
    exact hfound

/-- **A search finds what the recursion finds**, where nothing is marked yet. -/
theorem descend_start_rel_tryMatch (hg : g.Fits) (subject : Array Char) :
    Option.Rel (fun (st : State) (out : Attempt) => Mirrors g st out.memory)
      (Visit.descend g subject ⟨g.start, 0, .initial g.size g.groups⟩)
      (found? (tryMatch g subject ⟨g.start, 0⟩ .initial)) :=
  descend_rel_tryMatch hg (tracks_initial g subject) fun q =>
    iff_of_false (State.not_marked_initial g q) (Finset.notMem_empty q)

end

/-- **The search finds what the recursion finds.** Along a graph that has been compiled both arrive
or both fail; if they arrive, every group has the same instances in both, and if they fail, both are
back at the state in which they began. -/
theorem search_eq_tryMatch {limits : Limits} {pattern : String} {g : Graph}
    (h : compile limits pattern = .ok g) (subject : Array Char) :
    (search g subject).1 = (tryMatch g subject ⟨g.start, 0⟩ .initial).1 ∧
      ((search g subject).1 = true → ∀ k ≤ g.groups, (search g subject).2.captures[k]? =
        some ((tryMatch g subject ⟨g.start, 0⟩ .initial).2.memory.captures k)) ∧
      ((search g subject).1 = false → (search g subject).2 = .initial g.size g.groups ∧
        (tryMatch g subject ⟨g.start, 0⟩ .initial).2 = .initial) := by
  have hrel := descend_start_rel_tryMatch (fits_of_compile h) subject
  have hback : (tryMatch g subject ⟨g.start, 0⟩ .initial).1 = false →
      tryMatch g subject ⟨g.start, 0⟩ .initial = (false, .initial) := tryMatch_eq_of_not
  rw [search_eq_descend]
  generalize tryMatch g subject ⟨g.start, 0⟩ .initial = answer at hrel hback ⊢
  generalize Visit.descend g subject ⟨g.start, 0, .initial g.size g.groups⟩ = reached at hrel ⊢
  obtain ⟨_ | _, out⟩ := answer
  · cases hrel
    exact ⟨rfl, fun hf => Bool.noConfusion hf, fun _ => ⟨rfl, congrArg Prod.snd (hback rfl)⟩⟩
  · cases hrel with
    | some hmirrors => exact ⟨rfl, fun _ => hmirrors.captures, fun hf => Bool.noConfusion hf⟩

/-- In `(a|ab)+` along `ab` the first branch is tried, given up, and the second one captured. -/
theorem search_eq_tryMatch_secondBranch : ∃ g, compile {} "(a|ab)+" = .ok g ∧
    (tryMatch g #['a', 'b'] ⟨g.start, 0⟩ .initial).1 = true ∧
      (tryMatch g #['a', 'b'] ⟨g.start, 0⟩ .initial).2.memory.captures 1 = [⟨some 0, some 2⟩] := by
  let g : Graph := Graph.ofPattern ⟨[[.atom (.group 1 [[.atom (.test (.literal 'a')) none],
    [.atom (.test (.literal 'a')) none, .atom (.test (.literal 'b')) none]]) (some .plus)]], 1⟩
  have hc : compile {} "(a|ab)+" = .ok g := by cbv
  have hmatch : (search g #['a', 'b']).1 = true := by decide +kernel
  have hcapture : (search g #['a', 'b']).2.captures[1]? = some [⟨some 0, some 2⟩] := by
    decide +kernel
  obtain ⟨hsame, hcaptures, -⟩ := search_eq_tryMatch hc #['a', 'b']
  have hone := hcaptures hmatch 1 (Nat.le_refl 1)
  rw [hcapture] at hone
  exact ⟨g, hc, hsame.symm.trans hmatch, (Option.some.inj hone).symm⟩

end PatternGraph
