import PatternGraph.Proofs.Search.Pending

/-!
# The captures of a match

When a search arrives, the path it has taken is the one that is marked, and nothing is open on it
any more: every instance that has begun on the path has ended.

* **`exists_passes_of_search`**: the path that a search has taken when it arrives;
* `Settled.group?_eq_none_iff`: a group whose instances are finished has a span if it has an
  instance;
* **`captures_of_match`**: all that is captured when a subject matches.
-/

namespace PatternGraph

section

variable {g : Graph} {subject : Array Char} {st : State}

/-- **When a search arrives, its path is the one that is marked**, and its captures are those of the
path. -/
theorem exists_passes_of_search (hw : g.WellFormed) (hg : g.Fits)
    (h : search g subject = (true, st)) : ∃ passed mem,
      Passes g subject passed ⟨g.terminal, subject.size⟩ mem ∧
        Mirrors g st (mem.closeGroup 0 subject.size) ∧
        ∀ q, st.Marked q ↔ q ∈ ⟨g.terminal, subject.size⟩ :: passed := by
  obtain ⟨m, hm, ⟨-, -, hrun⟩ | ⟨st', ht, hrun⟩⟩ :=
    exists_ended (.start : (Machine.start g).Arises g subject)
  · cases h.symm.trans hrun
  obtain rfl : st = st' := (Prod.mk.inj (h.symm.trans hrun)).2
  have hstacked := stacked_of_arises hw hg hm
  rcases turn_ended g subject m with
    ⟨m', ht'⟩ | ⟨-, ht'⟩ | ⟨node, n, marked, stop, st', below, hs, hn, hk, hmark, hc, ht'⟩
  · cases ht.symm.trans ht'
  · cases ht.symm.trans ht'
  obtain rfl : st = st' := Turn.accepted.inj (ht.symm.trans ht')
  obtain rfl := hg.terminal node n hn hk
  rw [hs] at hstacked
  obtain ⟨mem, hpasses, htracks, hmarked⟩ := hstacked.1.2 _ (List.mem_singleton.2 rfl)
  have hsize : g.terminal < g.size := (Array.getElem?_eq_some_iff.1 hn).1
  have hfree : ¬ m.state.Marked ⟨g.terminal, subject.size⟩ := fun h => by
    rw [State.mark?_eq_none htracks.trails h] at hmark
    cases hmark
  obtain ⟨marked', hmark', hcaptures, hcounts, -, hplaces⟩ :=
    State.exists_mark? htracks.trails hsize hfree
  obtain rfl : marked' = marked := Option.some.inj (hmark'.symm.trans hmark)
  obtain ⟨stop', st', hc', hmirrors⟩ := (htracks.mirrors.congr hcaptures hcounts).closeGroup
    (Nat.zero_le _) (hpasses.reaches.captures_of_terminal hg hg.nodes_terminal) subject.size
  obtain rfl : st' = st := (Prod.mk.inj (Option.some.inj (hc'.symm.trans hc))).2
  refine ⟨trail below, mem, hpasses, hmirrors, fun q => ?_⟩
  rw [State.Marked, State.marks_closeGroup? hc, List.mem_cons, ← hmarked q]
  exact hplaces q

theorem Settled.group?_eq_none_iff {bound k : Nat} {instances : List Span}
    (h : Settled bound instances) (hk : st.captures[k]? = some instances) :
    st.group? k = none ↔ instances = [] := by
  rw [State.group?, State.latest?, hk]
  cases instances with
  | nil => simp
  | cons s rest =>
    obtain ⟨start, stop, rfl, -, -⟩ := h.closed s List.mem_cons_self
    simp [Option.filter, Span.isDefined]

end

section

variable {p : Pattern} {subject : Array Char} {passed : List Place} {mem : Memory} {i j k : Nat}
  (hw : (Graph.ofPattern p).WellFormed) (hg : (Graph.ofPattern p).Fits)

include hw hg

theorem bounds_of_inside (h : Branches.Inside j i p.branches) :
    (i ≠ 0 ∧ i ≤ p.groups) ∧ j ≠ 0 ∧ j ≤ p.groups := by
  obtain ⟨ho, -, hb⟩ := liesAt_ofPattern p
  obtain ⟨n, next, bs, hle, hi, hj⟩ := exists_liesAt p.branches 2 hb h
  obtain ⟨v, _, hv, -, hj⟩ := exists_groupOpen bs (n + 2) hi.2.2 hj
  have hnode : ∀ {v k : Nat} {next : List Nat}, 2 ≤ v →
      (Graph.ofPattern p).nodes[v]? = some ⟨.groupOpen k, next⟩ → k ≠ 0 ∧ k ≤ p.groups := by
    intro v k next hv hn
    refine ⟨?_, hg.kinds v _ hn⟩
    rintro rfl
    have := hw.eq_of_groupOpen hn ho
    omega
  exact ⟨hnode hle hi.1, hnode (by omega) hj⟩

variable (hp : Branches.numbers p.branches = List.range' 1 p.groups)
  (h : Passes (Graph.ofPattern p) subject passed ⟨1, subject.size⟩ mem)

include hp h

omit hg in
theorem Passes.captures_zero :
    (mem.closeGroup 0 subject.size).captures 0 = [⟨some 0, some subject.size⟩] := by
  rcases h.reaches.whole hw hp with ⟨hstart, -⟩ | ⟨-, hone⟩
  · cases hstart
  · exact Memory.captures_closeGroup_self hone

theorem Passes.settled (k : Nat) :
    Settled subject.size ((mem.closeGroup 0 subject.size).captures k) := by
  obtain ⟨opened, hi⟩ := h.reaches.instances hw hg
  obtain rfl := hi.eq_singleton (liesAt_ofPattern p).2.1
  by_cases hk : k = 0
  · subst hk
    rw [h.captures_zero hw hp]
    exact (settled_nil 0).cons (Nat.zero_le _) (Nat.le_refl _)
  · rw [Memory.captures_closeGroup_of_ne hk]
    exact hi.settled k fun hm => hk (List.mem_singleton.1 hm)

omit hw hg hp in
theorem Passes.entered_iff : (mem.closeGroup 0 subject.size).captures k ≠ [] ↔
    ∃ q ∈ passed.reverse ++ [⟨1, subject.size⟩], ∃ next,
      (Graph.ofPattern p).nodes[q.node]? = some ⟨.groupOpen k, next⟩ := by
  rw [Memory.captures_closeGroup_ne_nil_iff, h.captures_ne_nil_iff]
  constructor
  · rintro ⟨q, hq, hn⟩
    exact ⟨q, List.mem_append_left _ (List.mem_reverse.2 hq), hn⟩
  · rintro ⟨q, hq, next, hn⟩
    rcases List.mem_append.1 hq with hq | hq
    · exact ⟨q, List.mem_reverse.1 hq, next, hn⟩
    · rw [List.mem_singleton.1 hq, (liesAt_ofPattern p).2.1] at hn
      cases hn

theorem Passes.within (hfilled : Branches.Every Item.Filled p.branches) (hne : p.branches ≠ [])
    (hij : Branches.Inside j i p.branches) :
    ∀ s ∈ (mem.closeGroup 0 subject.size).captures j,
      ∃ t ∈ (mem.closeGroup 0 subject.size).captures i, s.Within t := by
  obtain ⟨⟨hi, -⟩, hj, -⟩ := bounds_of_inside hw hg hij
  have hsettled := h.settled hw hg hp
  intro s hs
  have hclosed := (hsettled j).closed s hs
  rw [Memory.captures_closeGroup_of_ne hj] at hs
  obtain ⟨t, ht, hts⟩ := h.reaches.around hw hg
    (fun hn hv => mem_of_inside hfilled hne hw.eq_of_groupOpen hij hn hv) s hs
  have ht' : t ∈ (mem.closeGroup 0 subject.size).captures i := by
    rwa [Memory.captures_closeGroup_of_ne hi]
  exact ⟨t, ht', hts.within hclosed ((hsettled i).closed t ht')⟩

end

/-- **All that is captured when a subject matches.** The whole match has one instance, from the
beginning of the subject to its end. The instances of each group are finished and follow one
another. A group has a span unless the path that has been taken has not come to the node that opens
the group. An instance of a group inside another lies within an instance of that one, so if the inner
group has a span the outer one has. -/
theorem captures_of_match {limits : Limits} {pattern : String} {r : Regex} {p : Pattern}
    (hr : RegexBuilder.build ⟨pattern, limits⟩ = .ok r)
    (hp : Pattern.read limits pattern.toList = .ok p) (subject : String) {m : Matcher}
    (hm : r.matcher.run subject = (true, m)) :
    m.state.captures[0]? = some [⟨some 0, some subject.length⟩] ∧
    (∀ k ≤ r.groups, ∃ instances, m.state.captures[k]? = some instances ∧
      (∀ s ∈ instances, s.ClosedBy subject.length) ∧
      instances.Pairwise fun later earlier => earlier.Before later) ∧
    (∃ path, Path r.graph subject.toList.toArray ⟨r.graph.start, 0⟩ .empty path ∧
      (∀ q, m.state.Marked q ↔ q ∈ path) ∧
      ∀ k ≤ r.groups, m.group? k = none ↔
        ¬ ∃ q ∈ path, ∃ next, r.graph.nodes[q.node]? = some ⟨.groupOpen k, next⟩) ∧
    ∀ i j, Branches.Inside j i p.branches →
      (∃ outer inner, m.state.captures[i]? = some outer ∧ m.state.captures[j]? = some inner ∧
        ∀ s ∈ inner, ∃ t ∈ outer, s.Within t) ∧
      ((m.group? j).isSome → (m.group? i).isSome) := by
  obtain rfl := eq_of_build hr hp
  obtain ⟨hfilled, hne⟩ := filled_of_read hp
  have hw := wellFormed_of_read hp
  have hg := Graph.fits_ofPattern (fits_of_read hp)
  have hnumbers := numbers_of_read hp
  obtain ⟨graph, st⟩ := m
  obtain ⟨hsearch, hgraph⟩ : search (Graph.ofPattern p) subject.toList.toArray = (true, st) ∧
      Graph.ofPattern p = graph := by
    simp only [Regex.matcher, Matcher.run, Matcher.ofGraph, Prod.mk.injEq, Matcher.mk.injEq] at hm
    exact ⟨Prod.ext hm.1 hm.2.2, hm.2.1⟩
  subst hgraph
  have hlength : subject.length = subject.toList.toArray.size := by
    rw [List.size_toArray, String.length_toList]
  rw [hlength]
  obtain ⟨passed, mem, hpasses, hmirrors, hmarked⟩ := exists_passes_of_search hw hg hsearch
  have hpasses' : Passes (Graph.ofPattern p) subject.toList.toArray passed
    ⟨1, subject.toList.toArray.size⟩ mem := hpasses
  have hsettled := hpasses'.settled hw hg hnumbers
  have hnone : ∀ k ≤ p.groups, st.group? k = none ↔
      (mem.closeGroup 0 subject.toList.toArray.size).captures k = [] := fun k hk =>
    (hsettled k).group?_eq_none_iff (hmirrors.captures k hk)
  refine ⟨?_, fun k hk => ⟨_, hmirrors.captures k hk, (hsettled k).closed, (hsettled k).ordered⟩,
    ⟨_, hpasses.path (.arrive mem), fun q => ?_, fun k hk => ?_⟩, fun i j hij => ?_⟩
  · rw [hmirrors.captures 0 (Nat.zero_le _), hpasses'.captures_zero hw hnumbers]
  · rw [hmarked q, List.mem_append, List.mem_reverse, List.mem_singleton, List.mem_cons, or_comm]
  · rw [← not_iff_not, not_not]
    exact (not_congr (hnone k hk)).trans hpasses'.entered_iff
  · obtain ⟨⟨-, hi⟩, -, hj⟩ := bounds_of_inside hw hg hij
    have hwithin := hpasses'.within hw hg hnumbers hfilled hne hij
    refine ⟨⟨_, _, hmirrors.captures i hi, hmirrors.captures j hj, hwithin⟩, fun hinner => ?_⟩
    rw [Option.isSome_iff_ne_none] at hinner ⊢
    obtain ⟨s, hs⟩ := List.exists_mem_of_ne_nil _ (mt (hnone j hj).2 hinner)
    obtain ⟨t, ht, -⟩ := hwithin s hs
    exact mt (hnone i hi).1 (List.ne_nil_of_mem ht)

/-- In `((a)|b)+` along `ab` the inner group has been passed by in the latest round. Its instance is
that of the round before, within the earlier of the two instances of the outer group. -/
theorem captures_of_match_earlierRound : ∃ r m, RegexBuilder.build ⟨"((a)|b)+", {}⟩ = .ok r ∧
    r.matcher.run "ab" = (true, m) ∧ m.state.captures[0]? = some [⟨some 0, some 2⟩] ∧
      m.state.captures[2]? = some [⟨some 0, some 1⟩] ∧
      (∃ outer, m.state.captures[1]? = some outer ∧
        ∃ t ∈ outer, (⟨some 0, some 1⟩ : Span).Within t) ∧ (m.group? 1).isSome := by
  let p : Pattern :=
    ⟨[[.atom (.group 1 [[.atom (.group 2 [[.atom (.test (.literal 'a')) none]]) none],
      [.atom (.test (.literal 'b')) none]]) (some .plus)]], 2⟩
  let r : Regex := ⟨"((a)|b)+", Graph.ofPattern p⟩
  have hr : RegexBuilder.build ⟨"((a)|b)+", {}⟩ = .ok r := by cbv
  have hp : Pattern.read {} "((a)|b)+".toList = .ok p := by cbv
  have hm : r.matcher.run "ab" = (true, (r.matcher.run "ab").2) :=
    Prod.ext (by decide +kernel) rfl
  have hinner : (r.matcher.run "ab").2.state.captures[2]? = some [⟨some 0, some 1⟩] := by
    decide +kernel
  obtain ⟨hzero, -, -, hinside⟩ := captures_of_match hr hp "ab" hm
  obtain ⟨⟨outer, inner, ho, hi, hwithin⟩, hsome⟩ :=
    hinside 1 2 (.inl (.inl (.inl ⟨rfl, by decide⟩)))
  rw [hinner] at hi
  cases hi
  exact ⟨r, _, hr, hm, hzero, hinner, ⟨outer, ho, hwithin _ (List.mem_singleton.2 rfl)⟩,
    hsome (by decide +kernel)⟩

end PatternGraph
