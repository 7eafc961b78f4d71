import Mathlib.Data.List.Nodup
import PatternGraph.Proofs.Search.Mirror

/-!
# The search finds what there is to find

The search gives up a way only where it comes to a place for the second time. So it finds every
path that does not come to a place twice, and it finds nothing else.

* `Onward.Leads`, `isSome_findSome?_of_follows`: one of the ways arrives;
* **`descend_isSome_iff`**: a descent arrives if a path leads on that avoids what is marked;
* **`search_iff_exists_path`**: a search arrives if a path leads from the start to the terminal
  without coming to a place twice.
-/

namespace PatternGraph

theorem exists_mem_iff_of_forall₂ {α β : Type} {R : α → β → Prop} {P : α → Prop} {Q : β → Prop}
    {as : List α} {bs : List β} (h : List.Forall₂ R as bs)
    (hPQ : ∀ a ∈ as, ∀ b, R a b → (P a ↔ Q b)) : (∃ a ∈ as, P a) ↔ ∃ b ∈ bs, Q b := by
  induction h with
  | nil => simp
  | cons hab _ ih =>
    simp only [List.exists_mem_cons_iff]
    rw [hPQ _ List.mem_cons_self _ hab, ih fun a ha => hPQ a (List.mem_cons_of_mem _ ha)]

section

variable {g : Graph} {subject : Array Char} {st : State} {mem : Memory} {p : Place}

/-- A path from the place that comes to no place twice, and to none that is marked. -/
def Clear (g : Graph) (subject : Array Char) (st : State) (p : Place) (mem : Memory) : Prop :=
  ∃ path, Path g subject p mem path ∧ path.Nodup ∧ ∀ q ∈ path, ¬ st.Marked q

theorem Clear.not_marked (h : Clear g subject st p mem) : ¬ st.Marked p := by
  obtain ⟨path, hp, -, hm⟩ := h
  exact hm p hp.mem_self

theorem clear_terminal (hm : ¬ st.Marked ⟨g.terminal, subject.size⟩) :
    Clear g subject st ⟨g.terminal, subject.size⟩ mem := by
  refine ⟨_, .arrive mem, List.nodup_singleton _, fun q hq => ?_⟩
  rw [List.mem_singleton.1 hq]
  exact hm

/-- Away from the terminal a place is clear if one of its moves leads to a place that is clear
once the place is marked. -/
theorem clear_iff (hp : p ≠ ⟨g.terminal, subject.size⟩) (hm : ¬ st.Marked p) :
    Clear g subject st p mem ↔ ∃ x ∈ moves g subject p mem, ∃ path,
      Path g subject x.1 x.2 path ∧ path.Nodup ∧ ∀ q ∈ path, ¬ (q = p ∨ st.Marked q) := by
  constructor
  · rintro ⟨path, hpath, hnd, hmark⟩
    cases hpath with
    | arrive => exact absurd rfl hp
    | @move _ q _ mem' path hmove hpath =>
      obtain ⟨hnot, hnd⟩ := List.nodup_cons.1 hnd
      refine ⟨(q, mem'), mem_moves.2 hmove, path, hpath, hnd, fun r hr => ?_⟩
      rintro (rfl | h)
      · exact hnot hr
      · exact hmark r (List.mem_cons_of_mem p hr) h
  · rintro ⟨⟨q, mem'⟩, hx, path, hpath, hnd, hmark⟩
    refine ⟨p :: path, .move (mem_moves.1 hx) hpath, List.nodup_cons.2 ⟨fun h => ?_, hnd⟩, ?_⟩
    · exact hmark p h (.inl rfl)
    · intro r hr
      rcases List.mem_cons.1 hr with rfl | hr
      · exact hm
      · exact fun h => hmark r hr (.inr h)

/-- **A descent arrives if and only if its place is clear.** -/
theorem descend_isSome_iff (hg : g.Fits) (h : Tracks g subject st p mem) :
    (Visit.descend g subject ⟨p.node, p.offset, st⟩).isSome ↔ Clear g subject st p mem := by
  -- the induction is on the room for marks, which every place that is left has taken some of
  induction hr : room subject.size st.marks using Nat.strongRecOn generalizing st p mem with
  | _ r ih =>
  subst hr
  by_cases hm : st.Marked p
  · rw [Visit.descend_of_ways (onward_of_marked h hm)]
    constructor
    · rintro ⟨⟩
    · exact fun hc => absurd hm hc.not_marked
  by_cases hp : p = ⟨g.terminal, subject.size⟩
  · obtain ⟨st', ho, -⟩ := onward_of_terminal hg h hp hm
    rw [Visit.descend_of_arrived ho]
    subst hp
    exact ⟨fun _ => clear_terminal hm, fun _ => rfl⟩
  obtain ⟨ws, ho, hf⟩ := onward_of_tracks hg h hp hm
  have hroom := Visit.room_lt_of_onward ho
  rw [Visit.descend_of_ways ho, List.findSome?_isSome_iff, clear_iff hp hm]
  -- a way and the move it follows arrive together
  have hway : ∀ w ∈ ws, ∀ x, w.Follows g subject st p x →
      ((w.descend g subject).isSome ↔ ∃ path, Path g subject x.1 x.2 path ∧ path.Nodup ∧
        ∀ q ∈ path, ¬ (q = p ∨ st.Marked q)) := by
    rintro w hw ⟨q, mem'⟩ ⟨hplace, htracks, hmark⟩
    have hi := ih _ (hroom w hw) htracks rfl
    simp only at hplace hi
    rw [← hplace] at hi
    rw [hi]
    simp only [Clear, hplace, hmark]
  exact exists_mem_iff_of_forall₂ hf hway

theorem search_iff_of_fits (hg : g.Fits) (subject : Array Char) :
    (search g subject).1 = true ↔
      ∃ path, Path g subject ⟨g.start, 0⟩ .empty path ∧ path.Nodup := by
  have hd := descend_isSome_iff hg (tracks_initial g subject)
  have hclear : Clear g subject (.initial g.size g.groups) ⟨g.start, 0⟩ .empty ↔
      ∃ path, Path g subject ⟨g.start, 0⟩ .empty path ∧ path.Nodup := by
    refine exists_congr fun path => and_congr_right fun _ => ?_
    exact and_iff_left fun q _ => State.not_marked_initial g q
  rw [← hclear, ← hd, search_eq_descend]
  cases Visit.descend g subject ⟨g.start, 0, .initial g.size g.groups⟩ with
  | none => simp
  | some st => simp

end

/-- **The search finds what there is to find**: along a graph that has been compiled it arrives if
and only if there is a path from the start to the terminal node at the end of the subject that comes
to no place twice. -/
theorem search_iff_exists_path {limits : Limits} {pattern : String} {g : Graph}
    (h : compile limits pattern = .ok g) (subject : Array Char) :
    (search g subject).1 = true ↔
      ∃ path, Path g subject ⟨g.start, 0⟩ .empty path ∧ path.Nodup :=
  search_iff_of_fits (fits_of_compile h) subject

/-- Along the graph of `(|a)*` there is such a path for `a`, with the zero-width pass left out. -/
theorem search_iff_exists_path_zeroWidth :
    compile {} "(|a)*" = .ok (Graph.ofPattern
        ⟨[[.atom (.group 1 [[], [.atom (.test (.literal 'a')) none]]) (some .star)]], 1⟩) ∧
      (search (Graph.ofPattern
        ⟨[[.atom (.group 1 [[], [.atom (.test (.literal 'a')) none]]) (some .star)]], 1⟩)
        #['a']).1 = true := by
  have hc : compile {} "(|a)*" = .ok (Graph.ofPattern
      ⟨[[.atom (.group 1 [[], [.atom (.test (.literal 'a')) none]]) (some .star)]], 1⟩) := by
    cbv
  refine ⟨hc, (search_iff_exists_path hc #['a']).2 ⟨_, .move (.openGroup rfl (m := 2) (by decide))
    (.move (.openGroup rfl (m := 4) (by decide)) (.move (.read rfl (m := 3) (by decide) (by decide))
      (.move (.closeGroup rfl (m := 5) (by decide)) (.move (.join rfl (m := 1) (by decide))
        (.arrive _))))), by decide⟩⟩

end PatternGraph
