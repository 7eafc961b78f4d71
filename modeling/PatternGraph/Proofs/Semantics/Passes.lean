import Mathlib.Data.List.Chain
import PatternGraph.Proofs.Pattern.Enclosed
import PatternGraph.Proofs.Search.Exhaustive
import PatternGraph.Proofs.Search.Passing
import PatternGraph.Proofs.Semantics.Language

/-!
# Passes over a counted group

A counted group goes over its body one pass after the other. Where one pass ends the next begins, at
the same offset, and a node that both come to there stops the search: it has been tried at that
offset already. So it is not enough that the texts of the passes match, there have to be ways
through the body that are apart where they meet.

* `Pass`: a text and a way through the body, `Pass.Along`, `Pass.Apart`;
* `trace`: the places of one pass after the other, **`nodup_trace_iff`**: no place twice;
* **`path_iff_exists_passes`**: a path is a row of passes;
* **`isMatch_counted_iff`**: what a counted group matches.
-/

namespace PatternGraph

/-- One pass over a body: the text it reads, and the places it comes to when it reads that text by
itself. -/
structure Pass where
  text : List Char
  run : List Place

/-- The places lead through the graph and over the whole text. -/
def Pass.Along (g : Graph) (x : Pass) : Prop :=
  Path g x.text.toArray ⟨g.start, 0⟩ .empty x.run

/-- No node where `x` is at the end of its text is one where `y` is at the beginning of its own. -/
def Pass.Apart (x y : Pass) : Prop :=
  ∀ v, ⟨v, x.text.length⟩ ∈ x.run → ⟨v, 0⟩ ∉ y.run

/-- The places of passes one after the other, the first of which begins at `base`. Behind each pass
comes the node that counts it. -/
def trace (size : Nat) : Nat → List Pass → List Place
  | _, [] => []
  | base, x :: xs => x.run.map (Place.moved base) ++ ⟨size + 3, base + x.text.length⟩ ::
      trace size (base + x.text.length) xs

/-- What comes behind the last pass. -/
def Graph.wayOut (g : Graph) (o : Nat) : List Place := [⟨g.size + 2, o⟩, ⟨1, o⟩]

section

variable {p : Pattern} {g' : Graph} {b : Bounds} {subject : List Char} {base c o : Nat}
  {mem : Memory} {path : List Place} {passes : List Pass}
  (he : g'.Encloses (Graph.ofPattern p) b)

include he

/-! ## Around the body -/

theorem path_wayOut_iff : Path g' subject.toArray ⟨(Graph.ofPattern p).size + 2, o⟩ mem path ↔
    o = subject.length ∧ path = (Graph.ofPattern p).wayOut o := by
  obtain ⟨hterm, hnode⟩ := he.terminal
  constructor
  · intro h
    rcases path_iff.1 h with ⟨ht, -⟩ | ⟨q, mem', rest, hm, hp, rfl⟩
    · have hv : (Graph.ofPattern p).size + 2 = g'.terminal := congrArg Place.node ht
      omega
    · rw [← mem_moves, moves_join he.join, places, List.map_singleton, List.mem_singleton,
        Prod.mk.injEq] at hm
      obtain ⟨rfl, rfl⟩ := hm
      rcases path_iff.1 hp with ⟨ht, rfl⟩ | ⟨q, mem'', rest, hm, -, -⟩
      · exact ⟨congrArg Place.offset ht, rfl⟩
      · simp only [← mem_moves, moves, hnode] at hm
        cases hm
  · rintro ⟨rfl, rfl⟩
    refine .move (.join he.join (List.mem_singleton.2 rfl)) (path_iff.2 (.inl ⟨?_, rfl⟩))
    rw [hterm, List.size_toArray]

theorem path_repetition_iff :
    Path g' subject.toArray ⟨(Graph.ofPattern p).size + 3, o⟩ mem path ↔
      ¬ b.exceeded (mem.counts ((Graph.ofPattern p).size + 3) + 1) ∧ ∃ rest,
        path = ⟨(Graph.ofPattern p).size + 3, o⟩ :: rest ∧
        (b.mayLoop (mem.counts ((Graph.ofPattern p).size + 3) + 1) ∧
            Path g' subject.toArray ⟨2, o⟩ (mem.setCount ((Graph.ofPattern p).size + 3)
              (mem.counts ((Graph.ofPattern p).size + 3) + 1)) rest ∨
          b.satisfied (mem.counts ((Graph.ofPattern p).size + 3) + 1) ∧ o = subject.length ∧
            rest = (Graph.ofPattern p).wayOut o) := by
  constructor
  · intro h
    rcases path_iff.1 h with ⟨ht, -⟩ | ⟨q, mem', rest, hm, hp, rfl⟩
    · have hv : (Graph.ofPattern p).size + 3 = g'.terminal := congrArg Place.node ht
      rw [he.terminal.1] at hv
      omega
    · rw [← mem_moves, moves_repetition he.repetition] at hm
      split at hm
      · simp at hm
      next hex =>
      refine ⟨hex, rest, rfl, ?_⟩
      rcases List.mem_append.1 hm with hm | hm
      · split at hm
        · next hl =>
          cases List.mem_singleton.1 hm
          exact .inl ⟨hl, hp⟩
        · simp at hm
      · split at hm
        · next hs =>
          cases List.mem_singleton.1 hm
          exact .inr ⟨hs, (path_wayOut_iff he).1 hp⟩
        · simp at hm
  · rintro ⟨hex, rest, rfl, ⟨hl, hp⟩ | ⟨hs, rfl, rfl⟩⟩
    · exact .move (.loop he.repetition (List.mem_singleton.2 rfl) hex hl) hp
    · exact .move (.leave he.repetition hex hs) ((path_wayOut_iff he).2 ⟨rfl, rfl⟩)

/-! ## Rows of passes -/

variable (hplain : (Graph.ofPattern p).Plain) (hanchor : (Graph.ofPattern p).Unanchored)

include hplain hanchor

theorem path_of_passes : ∀ {passes : List Pass} {base c : Nat} {mem : Memory}, passes ≠ [] →
    (∀ x ∈ passes, x.Along (Graph.ofPattern p)) →
    (passes.map Pass.text).flatten = subject.drop base → base ≤ subject.length →
    Carries (Graph.ofPattern p).size c Memory.empty.counts mem.counts →
    b.Allows (c + passes.length) →
      Path g' subject.toArray ⟨2, base⟩ mem (trace (Graph.ofPattern p).size base passes ++
        (Graph.ofPattern p).wayOut subject.length)
  | [], _, _, _, hne, _, _, _, _, _ => absurd rfl hne
  | x :: xs, base, c, mem, _, halong, hflat, hbase, hc, hallow => by
    rw [List.map_cons, List.flatten_cons] at hflat
    have htext : x.text <+: subject.drop base := ⟨_, hflat⟩
    have hle : base + x.text.length ≤ subject.length := by
      have := htext.length_le
      rw [List.length_drop] at this
      omega
    have hrest : (xs.map Pass.text).flatten = subject.drop (base + x.text.length) := by
      rw [← List.drop_drop, ← hflat, List.drop_left]
    have hsize := Nat.zero_lt_of_lt (Graph.one_lt_size_ofPattern p)
    obtain ⟨mem₁, hc₁, hrun⟩ := Path.moved he hplain hanchor htext hsize (held_empty _ _)
      (halong x List.mem_cons_self) hc
    rw [trace, List.append_assoc, List.cons_append]
    refine hrun _ ((path_repetition_iff he).2 ?_)
    rw [hc₁.passes]
    rw [List.length_cons] at hallow
    have hexceeded : ¬ b.exceeded (c + 1) := Bounds.not_exceeded_iff.2 fun max hmax => by
      have := hallow.2 max hmax
      omega
    refine ⟨hexceeded, _, rfl, ?_⟩
    cases xs with
    | nil =>
      have hge : subject.length ≤ base + x.text.length := List.drop_eq_nil_iff.1 hrest.symm
      have hend : base + x.text.length = subject.length := Nat.le_antisymm hle hge
      exact .inr ⟨Bounds.satisfied_iff.2 hallow.1, hend, by rw [hend]; rfl⟩
    | cons y ys =>
      have hloop : b.mayLoop (c + 1) := Bounds.mayLoop_iff.2 fun max hmax => by
        have := hallow.2 max hmax
        rw [List.length_cons] at this
        omega
      refine .inl ⟨hloop, path_of_passes (List.cons_ne_nil y ys)
        (fun z hz => halong z (List.mem_cons_of_mem x hz)) hrest hle (hc₁.setPasses (c + 1)) ?_⟩
      rwa [show c + 1 + (y :: ys).length = c + ((y :: ys).length + 1) by omega]

theorem exists_passes_of_path
    (hc : Carries (Graph.ofPattern p).size c Memory.empty.counts mem.counts)
    (hp : Path g' subject.toArray ⟨2, base⟩ mem path) :
    ∃ passes, passes ≠ [] ∧ (∀ x ∈ passes, x.Along (Graph.ofPattern p)) ∧
      (passes.map Pass.text).flatten = subject.drop base ∧ b.Allows (c + passes.length) ∧
      path = trace (Graph.ofPattern p).size base passes ++
        (Graph.ofPattern p).wayOut subject.length := by
  induction hl : path.length using Nat.strongRecOn generalizing base c mem path with
  | _ len ih =>
  subst hl
  have hsize := Nat.zero_lt_of_lt (Graph.one_lt_size_ofPattern p)
  obtain ⟨text, run, mem₁, rest, htext, -, hrun, rfl, hc₁, hrest⟩ :=
    Path.exists_run (x := ⟨0, 0⟩) he hplain hanchor hsize (held_empty _ _) hc hp
  obtain ⟨hex, rest, rfl, hgo⟩ := (path_repetition_iff he).1 hrest
  rw [hc₁.passes] at hex hgo
  rcases hgo with ⟨hl, hp'⟩ | ⟨hs, hend, rfl⟩
  · obtain ⟨passes, -, halong, hflat, hallow, rfl⟩ :=
      ih _ (by simp; omega) (hc₁.setPasses (c + 1)) hp' rfl
    refine ⟨⟨text, run⟩ :: passes, List.cons_ne_nil _ _, ?_, ?_, ?_, ?_⟩
    · intro x hx
      rcases List.mem_cons.1 hx with rfl | hx
      · exact hrun
      · exact halong x hx
    · obtain ⟨more, hmore⟩ := htext
      rw [List.map_cons, List.flatten_cons, hflat, ← List.drop_drop, ← hmore, List.drop_left]
    · rwa [List.length_cons, show c + (passes.length + 1) = c + 1 + passes.length by omega]
    · rw [trace, List.append_assoc, List.cons_append]
  · refine ⟨[⟨text, run⟩], List.cons_ne_nil _ _, ?_, ?_, Bounds.allows_iff.2 ⟨hex, hs⟩, ?_⟩
    · intro x hx
      rw [List.mem_singleton.1 hx]
      exact hrun
    · have hlen : text.length = (subject.drop base).length := by rw [List.length_drop]; omega
      rw [List.map_singleton, List.flatten_singleton]
      exact htext.eq_of_length hlen
    · rw [trace, trace, List.append_assoc, hend]
      rfl

/-- **A path over a counted group is a row of passes**, as many as the bounds allow. -/
theorem path_iff_exists_passes : Path g' subject.toArray ⟨0, 0⟩ .empty path ↔
    ∃ passes, b.Allows passes.length ∧ (passes.map Pass.text).flatten = subject ∧
      (∀ x ∈ passes, x.Along (Graph.ofPattern p)) ∧
      path = ⟨0, 0⟩ :: (trace (Graph.ofPattern p).size 0 passes ++
        (Graph.ofPattern p).wayOut subject.length) := by
  obtain ⟨-, next, hn, hnext⟩ := he.start
  have hc : Carries (Graph.ofPattern p).size 0 Memory.empty.counts
      (Memory.empty.openGroup 0 0).counts := ⟨fun _ _ => rfl, rfl⟩
  constructor
  · intro h
    rcases path_iff.1 h with ⟨ht, -⟩ | ⟨⟨v, o⟩, mem', rest, hm, hp, rfl⟩
    · have hv : 0 = g'.terminal := congrArg Place.node ht
      rw [he.terminal.1] at hv
      cases hv
    · rw [← mem_moves, moves_groupOpen hn, mem_places] at hm
      obtain ⟨hv, rfl, rfl⟩ := hm
      rcases (hnext v).1 hv with rfl | ⟨hb, rfl⟩
      · obtain ⟨passes, -, halong, hflat, hallow, rfl⟩ :=
          exists_passes_of_path he hplain hanchor hc hp
        rw [Nat.zero_add] at hallow
        exact ⟨passes, hallow, hflat, halong, rfl⟩
      · obtain ⟨hend, rfl⟩ := (path_wayOut_iff he).1 hp
        refine ⟨[], ⟨Nat.le_of_eq hb, fun _ _ => Nat.zero_le _⟩, ?_, by simp, by rw [← hend]; rfl⟩
        exact (List.length_eq_zero_iff.1 hend.symm).symm
  · rintro ⟨passes, hallow, hflat, halong, rfl⟩
    cases passes with
    | nil =>
      subst hflat
      have hout : Path g' ([] : List Char).toArray ⟨(Graph.ofPattern p).size + 2, 0⟩
          (Memory.empty.openGroup 0 0) ((Graph.ofPattern p).wayOut 0) :=
        (path_wayOut_iff he).2 ⟨rfl, rfl⟩
      exact .move (.openGroup hn ((hnext _).2 (.inr ⟨Nat.le_zero.1 hallow.1, rfl⟩))) hout
    | cons x xs =>
      rw [← Nat.zero_add (x :: xs).length] at hallow
      exact .move (.openGroup hn ((hnext 2).2 (.inl rfl)))
        (path_of_passes he hplain hanchor (List.cons_ne_nil x xs) halong hflat (Nat.zero_le _) hc
          hallow)

end

/-! ## No place twice -/

section

variable {p : Pattern} {x : Pass} {q : Place}

theorem Pass.Along.mem_terminal (h : x.Along (Graph.ofPattern p)) :
    ⟨1, x.text.length⟩ ∈ x.run := Path.mem_terminal h

theorem Pass.Along.of_mem (h : x.Along (Graph.ofPattern p)) (hq : q ∈ x.run) :
    q.node < (Graph.ofPattern p).size ∧ q.offset ≤ x.text.length := by
  obtain ⟨mem, rest, hrest, -, -⟩ := Path.exists_rest h hq
  refine ⟨?_, hrest.offset_le_size⟩
  rcases path_iff.1 hrest with ⟨rfl, -⟩ | ⟨_, _, _, hm, -, -⟩
  · exact Graph.one_lt_size_ofPattern p
  · obtain ⟨nd, hn, -⟩ := hm.exists_onto
    exact (Array.getElem?_eq_some_iff.1 hn).1

theorem of_mem_trace : ∀ {passes : List Pass} {base : Nat},
    (∀ x ∈ passes, x.Along (Graph.ofPattern p)) → q ∈ trace (Graph.ofPattern p).size base passes →
      base ≤ q.offset ∧ 2 ≤ q.node ∧ q.node ≠ (Graph.ofPattern p).size + 2
  | [], _, _, h => absurd h List.not_mem_nil
  | x :: xs, base, halong, h => by
    have hx := halong x List.mem_cons_self
    rcases List.mem_append.1 h with h | h
    · obtain ⟨z, hz, rfl⟩ := List.mem_map.1 h
      have hnode := (hx.of_mem hz).1
      exact ⟨Nat.le_add_right _ _, Nat.le_add_left _ _, fun h => by simp [Place.moved] at h; omega⟩
    · rcases List.mem_cons.1 h with rfl | h
      · exact ⟨Nat.le_add_right _ _, Nat.le_add_left _ _, fun h => by simp at h⟩
      · obtain ⟨hle, hnode⟩ := of_mem_trace (fun y hy => halong y (List.mem_cons_of_mem x hy)) h
        exact ⟨Nat.le_trans (Nat.le_add_right _ _) hle, hnode⟩

/-- Where passes begin, only the first of them has places if it reads anything. -/
theorem exists_of_mem_trace {y : Pass} {ys : List Pass} {base v : Nat}
    (halong : ∀ z ∈ y :: ys, z.Along (Graph.ofPattern p)) (hne : 0 < y.text.length)
    (h : ⟨v, base⟩ ∈ trace (Graph.ofPattern p).size base (y :: ys)) :
    ∃ w, ⟨w, 0⟩ ∈ y.run ∧ v = w + 2 := by
  rcases List.mem_append.1 h with h | h
  · obtain ⟨⟨w, o⟩, hz, heq⟩ := List.mem_map.1 h
    simp only [Place.moved, Place.mk.injEq] at heq
    obtain rfl : o = 0 := by omega
    exact ⟨w, hz, heq.1.symm⟩
  · rcases List.mem_cons.1 h with h | h
    · have := congrArg Place.offset h
      simp only at this
      omega
    · have := (of_mem_trace (fun z hz => halong z (List.mem_cons_of_mem y hz)) h).1
      simp only at this
      omega

/-- What is apart from a pass is followed by one that reads something, since both come to the end of
the body. -/
theorem Pass.Apart.length_pos {x y : Pass} (h : x.Apart y) (hx : x.Along (Graph.ofPattern p))
    (hy : y.Along (Graph.ofPattern p)) : 0 < y.text.length := by
  by_contra hzero
  have hend := hy.mem_terminal
  rw [Nat.eq_zero_of_not_pos hzero] at hend
  exact h 1 hx.mem_terminal hend

theorem Place.moved_injective (base : Nat) : Function.Injective (Place.moved base) := by
  rintro ⟨v, i⟩ ⟨w, j⟩ h
  simp only [Place.moved, Place.mk.injEq] at h ⊢
  omega

theorem disjoint_trace_iff {xs : List Pass} {base : Nat} (hx : x.Along (Graph.ofPattern p))
    (hxs : ∀ y ∈ xs, y.Along (Graph.ofPattern p)) :
    (⟨(Graph.ofPattern p).size + 3, base + x.text.length⟩ ∉
        trace (Graph.ofPattern p).size (base + x.text.length) xs ∧
      ∀ q ∈ x.run, q.moved base ∉ trace (Graph.ofPattern p).size (base + x.text.length) xs) ↔
    ∀ y ∈ xs.head?, x.Apart y := by
  constructor
  · rintro ⟨-, hrun⟩ y hy v hv hv'
    obtain ⟨ys, rfl⟩ := List.head?_eq_some_iff.1 hy
    refine hrun _ hv (List.mem_append_left _ (List.mem_map.2 ⟨⟨v, 0⟩, hv', ?_⟩))
    rfl
  · intro h
    cases xs with
    | nil => simp [trace]
    | cons y ys =>
      have hapart := h y rfl
      have hpos := hapart.length_pos hx (hxs y List.mem_cons_self)
      refine ⟨fun hm => ?_, fun q hq hm => ?_⟩
      · obtain ⟨w, hw, hv⟩ := exists_of_mem_trace hxs hpos hm
        have hlt : w < (Graph.ofPattern p).size := ((hxs y List.mem_cons_self).of_mem hw).1
        omega
      · obtain ⟨v, o⟩ := q
        have hle := (hx.of_mem hq).2
        have hge := (of_mem_trace hxs hm).1
        simp only [Place.moved] at hle hge hm
        obtain rfl : o = x.text.length := by omega
        obtain ⟨w, hw, hv⟩ := exists_of_mem_trace hxs hpos hm
        obtain rfl : v = w := by omega
        exact hapart v hq hw

/-- **Passes come to no place twice** if and only if none of them does and each is apart from the
next. -/
theorem nodup_trace_iff {passes : List Pass} {base : Nat}
    (halong : ∀ x ∈ passes, x.Along (Graph.ofPattern p)) :
    (trace (Graph.ofPattern p).size base passes).Nodup ↔
      (∀ x ∈ passes, x.run.Nodup) ∧ passes.IsChain Pass.Apart := by
  induction passes generalizing base with
  | nil => simp [trace]
  | cons x xs ih =>
    have hx := halong x List.mem_cons_self
    have hxs : ∀ y ∈ xs, y.Along (Graph.ofPattern p) := fun y hy =>
      halong y (List.mem_cons_of_mem x hy)
    have hcount : ∀ q ∈ x.run,
        q.moved base ≠ ⟨(Graph.ofPattern p).size + 3, base + x.text.length⟩ := by
      intro q hq h
      have hlt := (hx.of_mem hq).1
      have hnode : q.node + 2 = (Graph.ofPattern p).size + 3 := congrArg Place.node h
      omega
    have hdisjoint : (∀ q ∈ x.run.map (Place.moved base),
        ∀ r ∈ (⟨(Graph.ofPattern p).size + 3, base + x.text.length⟩ : Place) ::
          trace (Graph.ofPattern p).size (base + x.text.length) xs, q ≠ r) ↔
        ∀ q ∈ x.run, q.moved base ∉ trace (Graph.ofPattern p).size (base + x.text.length) xs := by
      constructor
      · intro h q hq hm
        exact h _ (List.mem_map_of_mem hq) _ (List.mem_cons_of_mem _ hm) rfl
      · intro h z hz r hr hqr
        obtain ⟨q, hq, rfl⟩ := List.mem_map.1 hz
        rcases List.mem_cons.1 hr with rfl | hr
        · exact hcount q hq hqr
        · exact h q hq (hqr ▸ hr)
    rw [trace, List.nodup_append, List.nodup_map_iff (Place.moved_injective base), List.nodup_cons,
      ih hxs, hdisjoint, List.isChain_cons, ← disjoint_trace_iff hx hxs, List.forall_mem_cons]
    tauto

theorem nodup_whole_iff {passes : List Pass} {o : Nat}
    (halong : ∀ x ∈ passes, x.Along (Graph.ofPattern p)) :
    ((⟨0, 0⟩ : Place) :: (trace (Graph.ofPattern p).size 0 passes ++
        (Graph.ofPattern p).wayOut o)).Nodup ↔
      (trace (Graph.ofPattern p).size 0 passes).Nodup := by
  have hstart : (⟨0, 0⟩ : Place) ∉ trace (Graph.ofPattern p).size 0 passes := fun h => by
    have := (of_mem_trace halong h).2.1
    simp only at this
    omega
  have hout : ∀ q ∈ trace (Graph.ofPattern p).size 0 passes,
      ∀ z ∈ (Graph.ofPattern p).wayOut o, q ≠ z := by
    rintro q hq z hz rfl
    obtain ⟨-, hlow, hjoin⟩ := of_mem_trace halong hq
    simp only [Graph.wayOut, List.mem_cons, List.not_mem_nil, or_false] at hz
    rcases hz with rfl | rfl
    · exact hjoin rfl
    · simp only at hlow
      omega
  have hends : ((Graph.ofPattern p).wayOut o).Nodup ∧
      (⟨0, 0⟩ : Place) ∉ (Graph.ofPattern p).wayOut o := by
    simp [Graph.wayOut]
  rw [List.nodup_cons, List.mem_append, List.nodup_append]
  tauto

end

/-! ## Counted groups -/

/-- The item is no anchor. -/
def Item.Unanchored : Item → Prop
  | .anchor _ => False
  | .atom _ _ => True

theorem Graph.unanchored_ofPattern {p : Pattern}
    (hp : Branches.Every Item.Unanchored p.branches) : (Graph.ofPattern p).Unanchored := by
  have hkinds : Branches.Every (Item.Yields fun kind => ∀ a, kind ≠ .anchor a) p.branches := by
    refine hp.mono fun item h => ?_
    cases item with
    | anchor a => exact h.elim
    | atom a q =>
      refine ⟨?_, fun x _ => ?_⟩
      · cases a <;> simp [Atom.Yields]
      · cases x <;> simp [Quantifier.Yields]
  exact fun i nd h => Graph.kind_ofPattern hkinds (by simp) (by simp) h

/-- **What a counted group matches**, if its body has no back references and no anchors: the texts
of passes one after the other, as many as the bounds allow, for which there are ways through the
body that come to no place twice and are apart where one ends and the next begins. -/
theorem isMatch_counted_iff {limits limits' : Limits} {pattern : String} {b : Bounds} {r r' : Regex}
    {p : Pattern} (hr : RegexBuilder.build ⟨pattern, limits⟩ = .ok r)
    (hp : Pattern.read limits pattern.toList = .ok p)
    (hregular : Branches.Every Item.Regular p.branches)
    (hanchor : Branches.Every Item.Unanchored p.branches)
    (hr' : RegexBuilder.build ⟨"(" ++ pattern ++ ")" ++ b.display, limits'⟩ = .ok r')
    (subject : String) :
    r'.isMatch subject = true ↔ ∃ passes : List Pass, b.Allows passes.length ∧
      (passes.map Pass.text).flatten = subject.toList ∧
      (∀ x ∈ passes, x.Along r.graph ∧ x.run.Nodup) ∧ passes.IsChain Pass.Apart := by
  obtain rfl := eq_of_build hr hp
  have htext : ("(" ++ pattern ++ ")" ++ b.display).toList =
      '(' :: (pattern.toList ++ ')' :: b.display.toList) := by
    simp [String.toList_append]
  obtain ⟨p', hp', rfl⟩ := exists_read_of_build hr'
  have hg := Graph.fits_ofPattern (fits_of_read hp')
  rw [htext] at hp'
  obtain rfl := read_enclosed hp hp'
  have he := encloses_ofPattern p b
  have hplain := Graph.plain_ofPattern hregular
  have hunanchored := Graph.unanchored_ofPattern hanchor
  refine (search_iff_of_fits hg subject.toList.toArray).trans ?_
  constructor
  · rintro ⟨path, hpath, hnd⟩
    obtain ⟨passes, hallow, hflat, halong, rfl⟩ :=
      (path_iff_exists_passes he hplain hunanchored).1 hpath
    obtain ⟨hruns, hchain⟩ := (nodup_trace_iff halong).1 ((nodup_whole_iff halong).1 hnd)
    exact ⟨passes, hallow, hflat, fun x hx => ⟨halong x hx, hruns x hx⟩, hchain⟩
  · rintro ⟨passes, hallow, hflat, hall, hchain⟩
    have halong : ∀ x ∈ passes, x.Along (Graph.ofPattern p) := fun x hx => (hall x hx).1
    refine ⟨_, (path_iff_exists_passes he hplain hunanchored).2 ⟨passes, hallow, hflat, halong, rfl⟩,
      ?_⟩
    exact (nodup_whole_iff halong).2
      ((nodup_trace_iff halong).2 ⟨fun x hx => (hall x hx).2, hchain⟩)

/-- `(a?b?){2,2}` matches `ba`. It does not match `ab`, since both passes come to the join between
the two letters at offset 1. -/
theorem isMatch_counted_iff_optional : ∃ r r',
    RegexBuilder.build ⟨"a?b?", {}⟩ = .ok r ∧
      RegexBuilder.build ⟨"(" ++ "a?b?" ++ ")" ++ Bounds.display ⟨2, some 2⟩, {}⟩ = .ok r' ∧
      r.isMatch "a" = true ∧ r.isMatch "b" = true ∧
      r'.isMatch "ba" = true ∧ r'.isMatch "ab" = false := by
  let p : Pattern := ⟨[[.atom (.test (.literal 'a')) (some .optional),
    .atom (.test (.literal 'b')) (some .optional)]], 0⟩
  have hb : RegexBuilder.build ⟨"a?b?", {}⟩ = .ok ⟨"a?b?", Graph.ofPattern p⟩ := by cbv
  have hp : Pattern.read {} "a?b?".toList = .ok p := by cbv
  have hrun : ((RegexBuilder.build
      ⟨"(" ++ "a?b?" ++ ")" ++ Bounds.display ⟨2, some 2⟩, {}⟩).toOption.map
        (·.isMatch "ab")) = some false := by decide +kernel
  obtain ⟨r', hoption, hab⟩ := Option.map_eq_some_iff.1 hrun
  have hb' : RegexBuilder.build ⟨"(" ++ "a?b?" ++ ")" ++ Bounds.display ⟨2, some 2⟩, {}⟩ =
      .ok r' := by
    cases h : RegexBuilder.build ⟨"(" ++ "a?b?" ++ ")" ++ Bounds.display ⟨2, some 2⟩, {}⟩ with
    | error e => rw [h] at hoption; cases hoption
    | ok r => rw [h] at hoption; cases hoption; rfl
  have hregular : Branches.Every Item.Regular p.branches := by
    simp [p, Branches.Every, Branch.Every, Atom.Every, Item.Regular]
  have hanchor : Branches.Every Item.Unanchored p.branches := by
    simp [p, Branches.Every, Branch.Every, Atom.Every, Item.Unanchored]
  let x : Pass := ⟨['b'], [⟨0, 0⟩, ⟨3, 0⟩, ⟨4, 0⟩, ⟨5, 1⟩, ⟨1, 1⟩]⟩
  let y : Pass := ⟨['a'], [⟨0, 0⟩, ⟨2, 0⟩, ⟨3, 1⟩, ⟨5, 1⟩, ⟨1, 1⟩]⟩
  have hx : x.Along (Graph.ofPattern p) :=
    .move (.openGroup rfl (m := 3) (by decide)) (.move (.join rfl (m := 4) (by decide))
      (.move (.read rfl (m := 5) (by decide) (by decide)) (.move (.join rfl (m := 1) (by decide))
        (.arrive _))))
  have hy : y.Along (Graph.ofPattern p) :=
    .move (.openGroup rfl (m := 2) (by decide)) (.move (.read rfl (m := 3) (by decide) (by decide))
      (.move (.join rfl (m := 5) (by decide)) (.move (.join rfl (m := 1) (by decide)) (.arrive _))))
  have hapart : x.Apart y := by
    intro v hv hv'
    simp [x, y] at hv hv'
    omega
  have hmatch := (isMatch_counted_iff hb hp hregular hanchor hb' "ba").2
    ⟨[x, y], ⟨Nat.le_refl 2, by simp⟩, rfl, ?_, by simpa using hapart⟩
  · exact ⟨_, r', hb, hb', by decide +kernel, by decide +kernel, hmatch, hab⟩
  · intro z hz
    simp only [List.mem_cons, List.not_mem_nil, or_false] at hz
    rcases hz with rfl | rfl
    · exact ⟨hx, by decide⟩
    · exact ⟨hy, by decide⟩

end PatternGraph
