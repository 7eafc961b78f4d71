import PatternGraph.Proofs.Search.Exhaustive
import PatternGraph.Proofs.Semantics.Language

/-!
# Regular patterns

A search does not come to a place twice on its path, so it may miss what it is looking for. Without
back references it misses nothing as long as counted repetitions read something on every pass: other
loops may go round without reading.

* `Item.Regular`, `Item.CountsRead`: the two conditions;
* **`search_iff_exists_path_of_regular`**: what can be come to at all is found;
* **`isMatch_iff_denotes`**: a subject matches if and only if the pattern relates its two ends.
-/

namespace PatternGraph

section

variable {p : Pattern}

theorem Graph.tame_ofPattern (hc : Branches.Every Item.CountsRead p.branches) :
    (Graph.ofPattern p).Tame := fun _ _ _ _ hn => not_transGen_repetition hc hn

/-- **The guard against coming to a place twice loses no match** of such a pattern. -/
theorem search_iff_exists_path_of_regular (hg : (Graph.ofPattern p).Fits)
    (hr : Branches.Every Item.Regular p.branches) (hc : Branches.Every Item.CountsRead p.branches)
    (subject : Array Char) :
    (search (Graph.ofPattern p) subject).1 = true ↔
      ∃ path, Path (Graph.ofPattern p) subject ⟨0, 0⟩ .empty path := by
  rw [search_iff_of_fits hg]
  constructor
  · rintro ⟨path, hpath, -⟩
    exact ⟨path, hpath⟩
  · rintro ⟨path, hpath⟩
    obtain ⟨short, hshort, hnd, -⟩ :=
      exists_nodup_path (Graph.plain_ofPattern hr) (Graph.tame_ofPattern hc) hpath
    exact ⟨short, hshort, hnd⟩

end

/-- **A regular pattern matches what it denotes.** Without back references, and if the bodies of all
counted repetitions have to read something, a subject matches if and only if the pattern relates its
two ends. -/
theorem isMatch_iff_denotes {limits : Limits} {pattern : String} {r : Regex} {p : Pattern}
    (hb : RegexBuilder.build ⟨pattern, limits⟩ = .ok r)
    (hp : Pattern.read limits pattern.toList = .ok p)
    (hr : Branches.Every Item.Regular p.branches) (hc : Branches.Every Item.CountsRead p.branches)
    (subject : String) :
    r.isMatch subject = true ↔
      Branches.Denotes subject.toList.toArray p.branches 0 subject.length := by
  obtain rfl := eq_of_build hb hp
  have hg := Graph.fits_ofPattern (fits_of_read hp)
  have hsize : subject.toList.toArray.size = subject.length := String.length_toList
  rw [← hsize, ← exists_path_iff_denotes hg hr, ← search_iff_exists_path_of_regular hg hr hc]
  rfl

/-- The loop of `(|a)*` goes round without reading where it takes the first branch, and matches
`aa` all the same. -/
theorem isMatch_iff_denotes_zeroWidth :
    ∃ r, RegexBuilder.build ⟨"(|a)*", {}⟩ = .ok r ∧ r.isMatch "aa" = true := by
  let p : Pattern :=
    ⟨[[.atom (.group 1 [[], [.atom (.test (.literal 'a')) none]]) (some .star)]], 1⟩
  have hb : RegexBuilder.build ⟨"(|a)*", {}⟩ = .ok ⟨"(|a)*", Graph.ofPattern p⟩ := by cbv
  have hp : Pattern.read {} "(|a)*".toList = .ok p := by cbv
  have hr : Branches.Every Item.Regular p.branches := by
    simp [p, Branches.Every, Branch.Every, Atom.Every, Item.Regular]
  have hc : Branches.Every Item.CountsRead p.branches := by
    simp [p, Branches.Every, Branch.Every, Atom.Every, Item.CountsRead]
  refine ⟨_, hb, (isMatch_iff_denotes hb hp hr hc "aa").2 (.inl ⟨2, ⟨2, ?_, ?_⟩, rfl⟩)⟩
  · exact ⟨Nat.zero_le 2, fun _ h => by cases h⟩
  · exact ⟨1, .inr (.inl ⟨1, ⟨by decide, rfl⟩, rfl⟩), 2, .inr (.inl ⟨2, ⟨by decide, rfl⟩, rfl⟩), rfl⟩

end PatternGraph
