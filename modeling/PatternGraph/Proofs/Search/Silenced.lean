import PatternGraph.Proofs.Graph.Silenced
import PatternGraph.Proofs.Search.Pending

/-!
# References to a group from inside it have no text

Wherever a search comes to a back reference inside its own group, in whatever round of whatever
loop, the latest instance of the group is one that has only begun. Earlier instances are hidden by
it. So there is no text to copy, and a class without characters does the same in its place.

* `Reaches.captures_of_around`: inside a group its latest instance has only begun;
* **`copyEnd?_of_around`**: at a reference inside its own group there is no text;
* **`turn_eq_of_silenced`**, `run_eq_of_silenced`: with silenced references each turn of a search is
  the same, and so is the whole run;
* **`own_backref_fails`**: both for patterns that are compiled.
-/

namespace PatternGraph

/-! ## Open groups have no text -/

section

variable {subject : Array Char} {st st' : State} {k offset : Nat}

theorem State.copyEnd?_congr (h : st'.captures = st.captures) :
    st'.copyEnd? subject k offset = st.copyEnd? subject k offset := by
  simp only [State.copyEnd?, State.group?, State.latest?, h]

theorem Memory.copyEnd?_of_begun {mem : Memory} {start : Nat} {rest : List Span}
    (h : mem.captures k = .startingAt start :: rest) :
    (mem.latest k).copyEnd? subject offset = none := by
  rw [Memory.latest, h]
  rfl

end

section

variable {p : Pattern} {subject : Array Char} {x : Place} {mem : Memory} {k : Nat}

/-- **Inside a group its latest instance has only begun**, and so has that of the whole match
everywhere behind the start. -/
theorem Reaches.captures_of_around (hw : (Graph.ofPattern p).WellFormed)
    (hg : (Graph.ofPattern p).Fits) (hfilled : Branches.Every Item.Filled p.branches)
    (hne : p.branches ≠ []) (hp : Branches.numbers p.branches = List.range' 1 p.groups)
    (h : Reaches (Graph.ofPattern p) subject x mem) (hx : x.node ≠ 0)
    (hlt : x.node < (Graph.ofPattern p).size)
    (hk : k = 0 ∨ Branches.Around k x.node p.branches 2) :
    ∃ start rest, mem.captures k = .startingAt start :: rest := by
  rcases hk with rfl | hk
  · rcases h.whole hw hp with ⟨rfl, -⟩ | ⟨-, hone⟩
    · exact absurd rfl hx
    · exact ⟨0, [], hone⟩
  · obtain ⟨opened, hi⟩ := h.instances hw hg
    obtain ⟨start, rest, he, -⟩ :=
      hi.latest k (mem_of_around hfilled hne hw.eq_of_groupOpen hk hlt hi.balanced)
    exact ⟨start, rest, he⟩

end

/-! ## Searches with silenced references -/

section

variable {limits : Limits} {text : List Char} {p p' : Pattern} {subject : Array Char} {m : Machine}
  (hp : Pattern.read limits text = .ok p)

include hp

/-- **Where a search is about to enter a reference inside its own group there is no text to
copy.** -/
theorem copyEnd?_of_around (hm : m.Arises (Graph.ofPattern p) subject) {v offset k : Nat}
    {next : List Nat} {below : List Frame} (hs : m.stack = .enter v offset :: below)
    (hn : (Graph.ofPattern p).nodes[v]? = some ⟨.backref k, next⟩)
    (hk : k = 0 ∨ Branches.Around k v p.branches 2) :
    m.state.copyEnd? subject k offset = none := by
  obtain ⟨hfilled, hne⟩ := filled_of_read hp
  have hw := wellFormed_of_read hp
  have hg := Graph.fits_ofPattern (fits_of_read hp)
  have hstacked := stacked_of_arises hw hg hm
  rw [hs] at hstacked
  obtain ⟨mem, hpasses, htracks, -⟩ := hstacked.1.2 _ (List.mem_singleton.2 rfl)
  have hv : v ≠ 0 := by
    rintro rfl
    cases hn.symm.trans (liesAt_ofPattern p).1
  obtain ⟨start, rest, he⟩ := hpasses.reaches.captures_of_around hw hg hfilled hne
    (numbers_of_read hp) hv (Array.getElem?_eq_some_iff.1 hn).1 hk
  rw [htracks.mirrors.copyEnd? (hg.kinds v _ hn), Memory.copyEnd?_of_begun he]

/-- **With silenced references a search takes the same turn**, whatever it has come to. -/
theorem turn_eq_of_silenced (h : p.Silenced p') (hm : m.Arises (Graph.ofPattern p) subject) :
    m.turn (Graph.ofPattern p') subject = m.turn (Graph.ofPattern p) subject := by
  obtain ⟨hsize, hnodes⟩ := silenced_ofPattern h
  obtain ⟨st, stack⟩ := m
  match stack, hm with
  | [], _ | .resume _ _ :: _, _ | .leave _ _ _ :: _, _ | .undo _ :: _, _ => rfl
  | .enter v offset :: below, hm =>
    simp only [Machine.turn, enter]
    cases hn : (Graph.ofPattern p).nodes[v]? with
    | none =>
      have hle : (Graph.ofPattern p).size ≤ v := Array.getElem?_eq_none_iff.1 hn
      rw [Array.getElem?_eq_none_iff.2 (hsize.symm ▸ hle : (Graph.ofPattern p').size ≤ v)]
    | some nd =>
      obtain ⟨nd', hn', hnd⟩ := hnodes v nd hn
      rw [hn']
      cases hnd with
      | same => rfl
      | @own k c next hk hc =>
        dsimp only
        split
        · cases hmark : st.mark? v offset with
          | none => rfl
          | some marked =>
            -- one node has nothing to copy, the other one no character to accept
            have hcopy := copyEnd?_of_around hp hm rfl hn hk
            rw [← State.copyEnd?_congr (State.eq_of_mark? hmark).1] at hcopy
            have hread : subject[offset]?.any (CharTest.oneOf c).accepts = false := by
              cases subject[offset]? with
              | none => rfl
              | some x => exact hc x
            simp only [act, hcopy, hread, Bool.false_eq_true, if_false]
        · rfl

theorem run_eq_of_silenced (h : p.Silenced p') (hm : m.Arises (Graph.ofPattern p) subject) :
    m.run (Graph.ofPattern p') subject = m.run (Graph.ofPattern p) subject := by
  -- the induction is on the weight of the stack, which every turn makes lighter
  induction hweight : m.weight (Graph.ofPattern p) subject using Nat.strongRecOn generalizing m with
  | _ weight ih =>
    subst hweight
    rw [run_eq_result, run_eq_result, turn_eq_of_silenced hp h hm]
    cases ht : m.turn (Graph.ofPattern p) subject with
    | going m' => exact ih _ (weight_turn_lt ht) (hm.turn ht) rfl
    | accepted st | exhausted st => rfl

/-- **A search with silenced references finds what the other one finds.** -/
theorem search_eq_of_silenced (h : p.Silenced p') (subject : Array Char) :
    search (Graph.ofPattern p') subject = search (Graph.ofPattern p) subject := by
  have hgroups : (Graph.ofPattern p').groups = (Graph.ofPattern p).groups := h.groups
  calc search (Graph.ofPattern p') subject
    _ = (Machine.start (Graph.ofPattern p)).run (Graph.ofPattern p') subject := by
      rw [search, Machine.start, (silenced_ofPattern h).1, hgroups]
      rfl
    _ = search (Graph.ofPattern p) subject := run_eq_of_silenced hp h .start

end

/-- **A reference inside its own group is never satisfied.** Whatever a search has come to, where it
enters such a reference there is no text to copy, neither before the node has been marked nor then.
References to the whole match are always inside it. So a class that no character belongs to may
stand in the place of such references, as many of them as one likes: what matches and what is
captured stays the same. -/
theorem own_backref_fails {limits : Limits} {pattern : String} {r : Regex} {p : Pattern}
    (hr : RegexBuilder.build ⟨pattern, limits⟩ = .ok r)
    (hp : Pattern.read limits pattern.toList = .ok p) :
    (∀ (subject : Array Char) (m : Machine), m.Arises r.graph subject →
      ∀ (v offset : Nat) (below : List Frame), m.stack = .enter v offset :: below →
      ∀ (k : Nat) (next : List Nat), r.graph.nodes[v]? = some ⟨.backref k, next⟩ →
      k = 0 ∨ Branches.Around k v p.branches 2 →
        m.state.copyEnd? subject k offset = none ∧ ∀ marked, m.state.mark? v offset = some marked →
          marked.copyEnd? subject k offset = none) ∧
    ∀ (pattern' : String) (p' : Pattern), p.Silenced p' → ∀ subject : String,
      (Regex.mk pattern' (Graph.ofPattern p')).isMatch subject = r.isMatch subject ∧
        (Regex.mk pattern' (Graph.ofPattern p')).captures? subject = r.captures? subject := by
  obtain rfl := eq_of_build hr hp
  refine ⟨fun subject m hm v offset below hs k next hn hk => ?_, fun pattern' p' h subject => ?_⟩
  · have hcopy := copyEnd?_of_around hp hm hs hn hk
    refine ⟨hcopy, fun marked hmark => ?_⟩
    rw [State.copyEnd?_congr (State.eq_of_mark? hmark).1, hcopy]
  · have hsearch := search_eq_of_silenced hp h subject.toList.toArray
    have hspans : ∀ st : State, (Matcher.mk (Graph.ofPattern p') st).spans =
        (Matcher.mk (Graph.ofPattern p) st).spans := fun st =>
      congrArg (fun n => (List.range (n + 1)).map st.group?) h.groups
    simp only [Regex.isMatch, Regex.captures?, Regex.matcher, Matcher.run, Matcher.ofGraph, hsearch]
    refine ⟨trivial, ?_⟩
    rcases search (Graph.ofPattern p) subject.toList.toArray with ⟨_ | _, st⟩
    · rfl
    · exact congrArg (fun spans => some (Captures.ofSpans subject spans)) (hspans st)

/-- What is read of `[^` and `]` with all characters between them: nothing belongs to it. -/
def noCharacter : CharClass := ⟨true, [⟨Char.ofNat 0, Char.ofNat 0x10ffff⟩]⟩

theorem accepts_noCharacter (x : Char) : noCharacter.accepts x = false := by
  have hlast : x.toNat ≤ 0x10ffff := by
    have := x.valid
    rcases this with h | ⟨-, h⟩
    · exact Nat.le_of_lt (Nat.lt_trans h (by decide))
    · exact Nat.le_of_lt_succ h
  have hle : x ≤ Char.ofNat 0x10ffff := UInt32.le_iff_toNat_le.2 hlast
  have hge : Char.ofNat 0 ≤ x := UInt32.le_iff_toNat_le.2 (Nat.zero_le _)
  simp [noCharacter, CharClass.accepts, CharRange.contains, hle, hge]

/-- One or more rounds of a group that is the literal `a` or another atom. -/
def literalOr (a : Atom) : Pattern :=
  ⟨[[.atom (.group 1 [[.atom (.test (.literal 'a')) none], [.atom a none]]) (some .plus)]], 1⟩

/-- A search for `a` in the second round of the group: where the literal has been tried, and what
has been put on the stack since the round began. -/
def secondRound (tried : List Nat) (top : List Frame) : Machine :=
  ⟨⟨#[[0], [], [1, 0], [1], tried, [], []],
      #[[⟨some 0, none⟩], [⟨some 1, none⟩, ⟨some 0, some 1⟩]], #[0, 0, 0, 0, 0, 0, 0]⟩,
    top ++ [.undo (.dropSpan 1), .undo (.unmark 2 1), .resume [6] 1, .undo (.restoreStop 1 none),
      .undo (.unmark 3 1), .undo (.unmark 4 0), .resume [5] 0, .undo (.dropSpan 1),
      .undo (.unmark 2 0), .undo (.dropSpan 0), .undo (.unmark 0 0)]⟩

/-- In `(a|\1)+` along `a` the reference is entered in the second round, where the instance of the
first one, which is `a`, is hidden. A class without characters does the same in its place. -/
theorem own_backref_fails_laterRound : ∃ (r r' : Regex) (m : Machine) (below : List Frame),
    RegexBuilder.build ⟨"(a|\\1)+", {}⟩ = .ok r ∧
      RegexBuilder.build ⟨"(a|[^\x00-" ++ String.singleton (Char.ofNat 0x10ffff) ++ "])+", {}⟩ =
        .ok r' ∧
      m.Arises r.graph #['a'] ∧ m.stack = .enter 5 1 :: below ∧
      m.state.captures[1]? = some [⟨some 1, none⟩, ⟨some 0, some 1⟩] ∧
      m.state.copyEnd? #['a'] 1 1 = none ∧
      ∀ subject, r'.captures? subject = r.captures? subject := by
  let pattern' := "(a|[^\x00-" ++ String.singleton (Char.ofNat 0x10ffff) ++ "])+"
  let p := literalOr (.backref 1)
  let p' := literalOr (.test (.oneOf noCharacter))
  have hr : RegexBuilder.build ⟨"(a|\\1)+", {}⟩ = .ok ⟨"(a|\\1)+", Graph.ofPattern p⟩ := by
    with_unfolding_all rfl
  have hp : Pattern.read {} "(a|\\1)+".toList = .ok p := by with_unfolding_all rfl
  have htext : pattern'.toList = ['(', 'a', '|', '[', '^', Char.ofNat 0, '-',
      Char.ofNat 0x10ffff, ']', ')', '+'] := by decide +kernel
  have hp' : Pattern.read {} pattern'.toList = .ok p' := by
    rw [htext]
    with_unfolding_all rfl
  have hr' : RegexBuilder.build ⟨pattern', {}⟩ = .ok ⟨pattern', Graph.ofPattern p'⟩ := by
    simp only [RegexBuilder.build, compile, hp']
  have hfirst : (Machine.start (Graph.ofPattern (literalOr (.backref 1)))).turns
      (Graph.ofPattern (literalOr (.backref 1))) #['a'] 6 =
        .going (secondRound [1, 0] [.undo (.unmark 4 1), .resume [5] 1]) := by
    with_unfolding_all rfl
  have hsecond : (secondRound [1, 0] [.undo (.unmark 4 1), .resume [5] 1]).turns
      (Graph.ofPattern (literalOr (.backref 1))) #['a'] 2 =
        .going (secondRound [0] [.enter 5 1]) := by
    with_unfolding_all rfl
  have hm := (Machine.Arises.start.turns hfirst).turns hsecond
  have hsilenced : p.Silenced p' :=
    ⟨.cons (.atom _ (.group 1 (.cons (.atom _ (.test _ _) (.nil _)) (.cons
      (.atom _ (.own (by decide) accepts_noCharacter) (.nil _)) (.nil _)))) (.nil _)) (.nil _), rfl⟩
  obtain ⟨hfails, hsame⟩ := own_backref_fails hr hp
  have hinside : Branches.Around 1 5 p.branches 2 :=
    .inl (.inl (.inl ⟨rfl, by decide, by decide⟩))
  exact ⟨_, _, _, _, hr, hr', hm, rfl, rfl, (hfails _ _ hm _ _ _ rfl 1 [3] rfl (.inr hinside)).1,
    fun subject => (hsame pattern' p' hsilenced subject).2⟩

end PatternGraph
