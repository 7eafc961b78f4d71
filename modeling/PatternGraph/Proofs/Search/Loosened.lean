import PatternGraph.Proofs.Graph.Loosened
import PatternGraph.Proofs.Search.Exhaustive
import PatternGraph.Proofs.Semantics.Counting

/-!
# Looser bounds lose no match

With looser bounds other paths may come first, and the path that arrives may be another one. But
each path is still there, with the same captures and the same counts.

* `Bounds.Looser.satisfied`, `Bounds.Looser.not_exceeded`, `Bounds.Looser.mayLoop`: what is asked of
  the passes stays true;
* `Move.looser`, `Path.looser`: a path of a graph is one of the looser graph;
* **`isMatch_of_loosened`**: what a pattern matches, it matches with looser bounds.
-/

namespace PatternGraph

/-! ## Bounds -/

section

variable {b b' : Bounds} {count : Nat}

theorem Bounds.Looser.satisfied (h : b.Looser b') (hc : b.satisfied count) : b'.satisfied count :=
  Bounds.satisfied_iff.2 (Nat.le_trans h.min (Bounds.satisfied_iff.1 hc))

theorem Bounds.Looser.not_exceeded (h : b.Looser b') (hc : ¬ b.exceeded count) :
    ¬ b'.exceeded count := by
  refine Bounds.not_exceeded_iff.2 fun high' hhigh' => ?_
  obtain ⟨high, hhigh, hle⟩ := h.max high' hhigh'
  exact Nat.le_trans (Bounds.not_exceeded_iff.1 hc high hhigh) hle

theorem Bounds.Looser.mayLoop (h : b.Looser b') (hc : b.mayLoop count) : b'.mayLoop count := by
  rw [Bounds.mayLoop_iff_not_exceeded] at hc ⊢
  exact h.not_exceeded hc

end

/-! ## Paths -/

section

variable {g g' : Graph} {subject : Array Char} {p q : Place} {mem mem' : Memory}

theorem Graph.Looser.exists_next (hg : g.Looser g') {v w : Nat} {kind : NodeKind} {next : List Nat}
    (hn : g.nodes[v]? = some ⟨kind, next⟩) (hk : ∀ b exit, kind ≠ .repetition b exit)
    (hw : w ∈ next) : ∃ next', g'.nodes[v]? = some ⟨kind, next'⟩ ∧ w ∈ next' := by
  obtain ⟨⟨kind', next'⟩, hn', hkind, hnext⟩ := hg.nodes v _ hn
  cases hkind with
  | same => exact ⟨next', hn', hnext hw⟩
  | repetition exit _ => exact absurd rfl (hk _ exit)

theorem Graph.Looser.exists_bounds (hg : g.Looser g') {v exit : Nat} {b : Bounds} {next : List Nat}
    (hn : g.nodes[v]? = some ⟨.repetition b exit, next⟩) : ∃ b' next', b.Looser b' ∧
      g'.nodes[v]? = some ⟨.repetition b' exit, next'⟩ ∧ next ⊆ next' := by
  obtain ⟨⟨kind', next'⟩, hn', hkind, hnext⟩ := hg.nodes v _ hn
  cases hkind with
  | same => exact ⟨b, next', ⟨Nat.le_refl _, fun high h => ⟨high, h, Nat.le_refl _⟩⟩, hn', hnext⟩
  | repetition _ hb => exact ⟨_, next', hb, hn', hnext⟩

/-- **A move can be made in the looser graph**, and leaves the same captured and counted. -/
theorem Move.looser (hg : g.Looser g') (h : Move g subject p mem q mem') :
    Move g' subject p mem q mem' := by
  cases h with
  | read hn hm ht =>
    obtain ⟨_, hn', hm'⟩ := hg.exists_next hn (by simp) hm
    exact .read hn' hm' ht
  | join hn hm =>
    obtain ⟨_, hn', hm'⟩ := hg.exists_next hn (by simp) hm
    exact .join hn' hm'
  | openGroup hn hm =>
    obtain ⟨_, hn', hm'⟩ := hg.exists_next hn (by simp) hm
    exact .openGroup hn' hm'
  | closeGroup hn hm =>
    obtain ⟨_, hn', hm'⟩ := hg.exists_next hn (by simp) hm
    exact .closeGroup hn' hm'
  | copy hn hm hc =>
    obtain ⟨_, hn', hm'⟩ := hg.exists_next hn (by simp) hm
    exact .copy hn' hm' hc
  | loop hn hm he hl =>
    obtain ⟨b', next', hb, hn', hnext⟩ := hg.exists_bounds hn
    exact .loop hn' (hnext hm) (hb.not_exceeded he) (hb.mayLoop hl)
  | leave hn he hs =>
    obtain ⟨b', next', hb, hn', -⟩ := hg.exists_bounds hn
    exact .leave hn' (hb.not_exceeded he) (hb.satisfied hs)
  | anchor hn hm ha =>
    obtain ⟨_, hn', hm'⟩ := hg.exists_next hn (by simp) hm
    exact .anchor hn' hm' ha

theorem Path.looser (hg : g.Looser g') {path : List Place} (h : Path g subject p mem path) :
    Path g' subject p mem path := by
  induction h with
  | arrive mem =>
    rw [← hg.terminal]
    exact .arrive mem
  | move hm _ ih => exact .move (hm.looser hg) ih

end

/-- **Loosening bounds loses no match.** Where the lower bounds of some counted quantifiers of a
pattern are taken down and their upper bounds up, or away, the pattern still matches what it has
matched, whatever is repeated and whatever stands around it. -/
theorem isMatch_of_loosened {limits limits' : Limits} {pattern pattern' : String} {r r' : Regex}
    {p p' : Pattern} (hr : RegexBuilder.build ⟨pattern, limits⟩ = .ok r)
    (hp : Pattern.read limits pattern.toList = .ok p)
    (hr' : RegexBuilder.build ⟨pattern', limits'⟩ = .ok r')
    (hp' : Pattern.read limits' pattern'.toList = .ok p')
    (h : Branches.Loosened p.branches p'.branches) (subject : String)
    (hmatch : r.isMatch subject = true) : r'.isMatch subject = true := by
  obtain rfl := eq_of_build hr hp
  obtain rfl := eq_of_build hr' hp'
  have hfits := Graph.fits_ofPattern (fits_of_read hp)
  have hfits' := Graph.fits_ofPattern (fits_of_read hp')
  obtain ⟨path, hpath, hnodup⟩ := (search_iff_of_fits hfits subject.toList.toArray).1 hmatch
  -- the path is one that comes to no place twice in the looser graph as well
  exact (search_iff_of_fits hfits' subject.toList.toArray).2
    ⟨path, hpath.looser (looser_ofPattern h), hnodup⟩

/-- In `^(a|b{1,2}|()){2,3}\1$` two of the repetitions are loosened, one inside the other, and the
outer one may then be passed over. -/
theorem isMatch_of_loosened_nested : ∃ r r',
    RegexBuilder.build ⟨"^(a|b\x7b1,2\x7d|())\x7b2,3\x7d\\1$", {}⟩ = .ok r ∧
      RegexBuilder.build ⟨"^(a|b\x7b1,4\x7d|())\x7b0,\x7d\\1$", {}⟩ = .ok r' ∧
      r.isMatch "abbbb" = true ∧ r'.isMatch "abbbb" = true := by
  let body (b : Bounds) : Atom :=
    .group 1 [[.atom (.test (.literal 'a')) none],
      [.atom (.test (.literal 'b')) (some (.counted b))], [.atom (.group 2 [[]]) none]]
  let around (b b' : Bounds) : Pattern :=
    ⟨[[.anchor .atStart, .atom (body b) (some (.counted b')), .atom (.backref 1) none,
      .anchor .atEnd]], 2⟩
  let p := around ⟨1, some 2⟩ ⟨2, some 3⟩
  let p' := around ⟨1, some 4⟩ ⟨0, none⟩
  have hr : RegexBuilder.build ⟨"^(a|b\x7b1,2\x7d|())\x7b2,3\x7d\\1$", {}⟩ =
      .ok ⟨"^(a|b\x7b1,2\x7d|())\x7b2,3\x7d\\1$", Graph.ofPattern p⟩ := by with_unfolding_all rfl
  have hp : Pattern.read {} "^(a|b\x7b1,2\x7d|())\x7b2,3\x7d\\1$".toList = .ok p := by
    with_unfolding_all rfl
  have hr' : RegexBuilder.build ⟨"^(a|b\x7b1,4\x7d|())\x7b0,\x7d\\1$", {}⟩ =
      .ok ⟨"^(a|b\x7b1,4\x7d|())\x7b0,\x7d\\1$", Graph.ofPattern p'⟩ := by with_unfolding_all rfl
  have hp' : Pattern.read {} "^(a|b\x7b1,4\x7d|())\x7b0,\x7d\\1$".toList = .ok p' := by
    with_unfolding_all rfl
  have hinner : Quantifier.Looser (.counted ⟨1, some 2⟩) (.counted ⟨1, some 4⟩) :=
    .counted ⟨by decide, fun high h => ⟨2, rfl, by cases h; decide⟩⟩
  have houter : Quantifier.Looser (.counted ⟨2, some 3⟩) (.counted ⟨0, none⟩) :=
    .counted ⟨by decide, fun high h => by cases h⟩
  have hbody : (body ⟨1, some 2⟩).Loosened (body ⟨1, some 4⟩) :=
    .group 1 (.cons (.atom (.test _) .nil) (.cons (.quantified (.test _) hinner .nil)
      (.cons (.atom (.group 2 (.cons .nil .nil)) .nil) .nil)))
  have h : Branches.Loosened p.branches p'.branches :=
    .cons (.anchor _ (.quantified hbody houter (.atom (.backref 1) (.anchor _ .nil)))) .nil
  have hmatch : (Regex.mk "^(a|b\x7b1,2\x7d|())\x7b2,3\x7d\\1$" (Graph.ofPattern p)).isMatch
      "abbbb" = true := by decide +kernel
  exact ⟨_, _, hr, hr', hmatch, isMatch_of_loosened hr hp hr' hp' h "abbbb" hmatch⟩

end PatternGraph
