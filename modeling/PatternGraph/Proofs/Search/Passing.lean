import PatternGraph.Proofs.Graph.Moved
import PatternGraph.Proofs.Search.Held
import PatternGraph.Proofs.Search.Shortcut

/-!
# One pass over the body of a repetition

Where a graph lies inside another, a path along the larger one goes over it as it would by itself:
the same moves on a part of the subject, with the same counts. Anchors and back references are left
out, since they look beyond that part.

* `Place.moved`, `Carries`: places and memories in the larger graph;
* **`Move.moved`**, **`Move.exists_of_moved`**: moves in both directions;
* **`Path.moved`**: a path along the inner graph is part of one along the larger;
* **`Path.exists_run`**: where a path enters the inner graph it goes over it to its end.
-/

namespace PatternGraph

/-- No node is an anchor. -/
def Graph.Unanchored (g : Graph) : Prop :=
  ∀ (i : Nat) (nd : Node), g.nodes[i]? = some nd → ∀ a, nd.kind ≠ .anchor a

/-- A place of a pass that begins at `base`, in the larger graph. -/
def Place.moved (base : Nat) (x : Place) : Place := ⟨x.node + 2, base + x.offset⟩

/-- What is counted in the inner graph is counted in the larger one as well, with so many passes
over the inner graph. -/
structure Carries (size passes : Nat) (counts counts' : Nat → Nat) : Prop where
  counts : ∀ v, v < size → counts' (v + 2) = counts v
  passes : counts' (size + 3) = passes

section

variable {size c : Nat} {counts counts' : Nat → Nat}

theorem Carries.update (h : Carries size c counts counts') {v : Nat} (hv : v < size) (n : Nat) :
    Carries size c (Function.update counts v n) (Function.update counts' (v + 2) n) := by
  refine ⟨fun w hw => ?_, ?_⟩
  · by_cases hwv : w = v
    · rw [hwv, Function.update_self, Function.update_self]
    · rw [Function.update_of_ne hwv, Function.update_of_ne (by omega), h.counts w hw]
  · rw [Function.update_of_ne (by omega), h.passes]

theorem Carries.setPasses (h : Carries size c counts counts') (n : Nat) :
    Carries size n counts (Function.update counts' (size + 3) n) := by
  refine ⟨fun v hv => ?_, Function.update_self _ _ _⟩
  rw [Function.update_of_ne (by omega), h.counts v hv]

/-- Where the inner graph is left, nothing is counted in it. -/
theorem Carries.of_held {ns : Array Node} (h : Carries size c counts counts')
    (hheld : Held ns counts 1) : Carries size c Memory.empty.counts counts' := by
  refine ⟨fun v hv => ?_, h.passes⟩
  rw [h.counts v hv, hheld.eq_zero]
  rfl

end

theorem getElem?_of_prefix {subject text : List Char} {base i : Nat}
    (h : text <+: subject.drop base) (hi : i < text.length) :
    subject.toArray[base + i]? = text.toArray[i]? := by
  rw [List.getElem?_toArray, List.getElem?_toArray, ← List.getElem?_drop]
  obtain ⟨rest, hrest⟩ := h
  rw [← hrest, List.getElem?_append_left hi]

/-! ## Moves -/

section

variable {g g' : Graph} {b : Bounds} {subject text : List Char} {base c : Nat}
  {x y : Place} {mem mem' mem₁ : Memory}
  (he : g'.Encloses g b) (hplain : g.Plain) (hanchor : g.Unanchored)

include he hplain hanchor

/-- **A move along the inner graph is one along the larger.** -/
theorem Move.moved (htext : text <+: subject.drop base) (hx : x.node < g.size)
    (hm : Move g text.toArray x mem y mem₁) (hc : Carries g.size c mem.counts mem'.counts) :
    ∃ mem₁', Move g' subject.toArray (x.moved base) mem' (y.moved base) mem₁' ∧
      Carries g.size c mem₁.counts mem₁'.counts := by
  -- there is no move from the terminal
  have hnode : ∀ {v : Nat} {nd : Node}, g.nodes[v]? = some nd → nd.kind ≠ .terminal →
      g'.nodes[v + 2]? = some (nd.renamed (· + 2) (· + 1)) := by
    intro v nd hn hk
    refine he.nodes ?_ hn
    rintro rfl
    rw [he.inner.2.2] at hn
    cases hn
    exact hk rfl
  have hnext : ∀ {w : Nat} {next : List Nat}, w ∈ next → w + 2 ∈ next.map (· + 2) := fun hw =>
    List.mem_map.2 ⟨_, hw, rfl⟩
  cases hm with
  | @read node offset next w t mem hn hw ht =>
    have hi : offset < text.length := lt_size_of_any ht
    rw [← getElem?_of_prefix htext hi] at ht
    exact ⟨mem', .read (hnode hn (by simp)) (hnext hw) ht, hc⟩
  | join hn hw => exact ⟨mem', .join (hnode hn (by simp)) (hnext hw), hc⟩
  | openGroup hn hw => exact ⟨_, .openGroup (hnode hn (by simp)) (hnext hw), hc⟩
  | closeGroup hn hw => exact ⟨_, .closeGroup (hnode hn (by simp)) (hnext hw), hc⟩
  | copy hn => exact absurd rfl (hplain _ _ hn _)
  | loop hn hw hex hl =>
    have hcount := hc.counts _ hx
    refine ⟨_, .loop (hnode hn (by simp)) (hnext hw) ?_ ?_, ?_⟩
    · rwa [hcount]
    · rwa [hcount]
    · rw [hcount]
      exact hc.update hx _
  | leave hn hex hs =>
    have hcount := hc.counts _ hx
    refine ⟨_, .leave (hnode hn (by simp)) ?_ ?_, hc.update hx _⟩
    · rwa [hcount]
    · rwa [hcount]
  | anchor hn => exact absurd rfl (hanchor _ _ hn _)

/-- **A move along the larger graph from a node of the inner one is a move along that**, in all
parts of the subject that it does not leave. -/
theorem Move.exists_of_moved {z : Place} {mem₁' : Memory} (hx : x.node < g.size) (hne : x.node ≠ 1)
    (hm : Move g' subject.toArray (x.moved base) mem' z mem₁')
    (hc : Carries g.size c mem.counts mem'.counts) :
    ∃ y mem₁, z = y.moved base ∧ Carries g.size c mem₁.counts mem₁'.counts ∧
      ∀ text, text <+: subject.drop base → y.offset ≤ text.length →
        Move g text.toArray x mem y mem₁ := by
  obtain ⟨node, offset⟩ := x
  obtain ⟨w, o⟩ := z
  obtain ⟨⟨kind, next⟩, hn⟩ : ∃ nd, g.nodes[node]? = some nd :=
    ⟨_, Array.getElem?_eq_getElem hx⟩
  have hn' := he.nodes hne hn
  have hcount := hc.counts node hx
  rw [← mem_moves] at hm
  -- where nothing is read or counted, only the node changes
  have hsame : ∀ (mem₂ : Memory) {mem₂' : Memory},
      ((⟨w, o⟩ : Place), mem₁') ∈ places (next.map (· + 2)) (base + offset) mem₂' →
      Carries g.size c mem₂.counts mem₂'.counts →
      (∀ v ∈ next, ∀ text : List Char, Move g text.toArray ⟨node, offset⟩ mem ⟨v, offset⟩ mem₂) →
      ∃ y mem₁, (⟨w, o⟩ : Place) = y.moved base ∧ Carries g.size c mem₁.counts mem₁'.counts ∧
        ∀ text, text <+: subject.drop base → y.offset ≤ text.length →
          Move g text.toArray ⟨node, offset⟩ mem y mem₁ := by
    intro mem₂ mem₂' hp hc₂ hmove
    obtain ⟨hw, ho, rfl⟩ := mem_places.1 hp
    obtain ⟨v, hv, rfl⟩ := List.mem_map.1 hw
    obtain rfl : o = base + offset := ho
    exact ⟨⟨v, offset⟩, mem₂, rfl, hc₂, fun text _ _ => hmove v hv text⟩
  cases kind with
  | test t =>
    rw [Place.moved, moves_test hn'] at hm
    split at hm
    · next ht =>
      obtain ⟨hw, ho, rfl⟩ := mem_places.1 hm
      obtain ⟨v, hv, rfl⟩ := List.mem_map.1 hw
      obtain rfl : o = base + offset + 1 := ho
      refine ⟨⟨v, offset + 1⟩, mem, rfl, hc, fun text htext hle => .read hn hv ?_⟩
      rwa [← getElem?_of_prefix htext hle]
    · simp at hm
  | join =>
    rw [Place.moved, moves_join hn'] at hm
    exact hsame mem hm hc fun v hv text => .join hn hv
  | groupOpen k =>
    rw [Place.moved, moves_groupOpen hn'] at hm
    exact hsame (mem.openGroup k offset) hm hc fun v hv text => .openGroup hn hv
  | groupClose k =>
    rw [Place.moved, moves_groupClose hn'] at hm
    exact hsame (mem.closeGroup k offset) hm hc fun v hv text => .closeGroup hn hv
  | terminal =>
    simp only [Place.moved, moves, hn'] at hm
    cases hm
  | backref k => exact absurd rfl (hplain _ _ hn _)
  | repetition b' exit =>
    rw [Place.moved, moves_repetition hn', hcount] at hm
    split at hm
    · simp at hm
    next hex =>
    rcases List.mem_append.1 hm with hm | hm
    · split at hm
      · next hl =>
        exact hsame _ hm (hc.update hx _) fun v hv text => .loop hn hv hex hl
      · simp at hm
    · split at hm
      · next hs =>
        cases List.mem_singleton.1 hm
        exact ⟨⟨exit, offset⟩, _, rfl, hc.update hx _, fun text _ _ => .leave hn hex hs⟩
      · simp at hm
  | anchor a => exact absurd rfl (hanchor _ _ hn _)

end

/-! ## Paths -/

section

variable {p : Pattern} {g' : Graph} {b : Bounds} {subject text : List Char} {base c : Nat}
  {x : Place} {mem mem' : Memory} {run path : List Place}
  (he : g'.Encloses (Graph.ofPattern p) b) (hplain : (Graph.ofPattern p).Plain)
  (hanchor : (Graph.ofPattern p).Unanchored)

include he hplain hanchor

/-- **A path along the inner graph is part of one along the larger**, behind which a pass is
complete. -/
theorem Path.moved (htext : text <+: subject.drop base) (hx : x.node < (Graph.ofPattern p).size)
    (hheld : Held (Graph.ofPattern p).nodes mem.counts x.node)
    (hp : Path (Graph.ofPattern p) text.toArray x mem run)
    (hc : Carries (Graph.ofPattern p).size c mem.counts mem'.counts) :
    ∃ mem₁, Carries (Graph.ofPattern p).size c Memory.empty.counts mem₁.counts ∧ ∀ rest,
      Path g' subject.toArray ⟨(Graph.ofPattern p).size + 3, base + text.length⟩ mem₁ rest →
        Path g' subject.toArray (x.moved base) mem' (run.map (Place.moved base) ++ rest) := by
  induction hp generalizing mem' with
  | arrive mem =>
    exact ⟨mem'.closeGroup 1 (base + text.length), hc.of_held hheld, fun rest hrest =>
      .move (.closeGroup he.close (List.mem_singleton.2 rfl)) hrest⟩
  | @move x y mem mem₂ run hm hp ih =>
    obtain ⟨nd, hn, hy⟩ := hm.exists_onto
    obtain ⟨mem₂', hm', hc₂⟩ := hm.moved he hplain hanchor htext hx hc
    obtain ⟨mem₁, hc₁, hrest⟩ := ih (onto_lt_size hn hy) (hheld.move hm) hc₂
    exact ⟨mem₁, hc₁, fun rest h => .move hm' (hrest rest h)⟩

/-- **Where a path enters the inner graph it goes over it to its end.** -/
theorem Path.exists_run (hx : x.node < (Graph.ofPattern p).size)
    (hheld : Held (Graph.ofPattern p).nodes mem.counts x.node)
    (hc : Carries (Graph.ofPattern p).size c mem.counts mem'.counts)
    (hp : Path g' subject.toArray (x.moved base) mem' path) :
    ∃ text run mem₁ rest, text <+: subject.drop base ∧ x.offset ≤ text.length ∧
      Path (Graph.ofPattern p) text.toArray x mem run ∧ path = run.map (Place.moved base) ++ rest ∧
      Carries (Graph.ofPattern p).size c Memory.empty.counts mem₁.counts ∧
      Path g' subject.toArray ⟨(Graph.ofPattern p).size + 3, base + text.length⟩ mem₁ rest := by
  generalize hz : x.moved base = z at hp
  induction hp generalizing x mem with
  | arrive =>
    rw [he.terminal.1] at hz
    have hnode : x.node + 2 = 1 := congrArg Place.node hz
    omega
  | @move z z' mem' mem₂' path hm hp ih =>
    subst hz
    have hle : base + x.offset ≤ subject.length := Nat.le_trans hm.offset_le hp.offset_le_size
    have hdrop : (subject.drop base).length = subject.length - base := List.length_drop
    by_cases hone : x.node = 1
    · -- the inner graph is left here, and what has been passed is the text
      obtain ⟨node, offset⟩ := x
      obtain rfl : node = 1 := hone
      have hle : base + offset ≤ subject.length := hle
      have hlen : ((subject.drop base).take offset).length = offset :=
        List.length_take_of_le (by omega)
      rw [← mem_moves, Place.moved, moves_groupClose he.close, places, List.map_singleton,
        List.mem_singleton, Prod.mk.injEq] at hm
      obtain ⟨rfl, rfl⟩ := hm
      have hrun : Path (Graph.ofPattern p) ((subject.drop base).take offset).toArray ⟨1, offset⟩ mem
          [⟨1, offset⟩] := by
        refine path_iff.2 (.inl ⟨?_, rfl⟩)
        rw [List.size_toArray, hlen, he.inner.2.1]
      refine ⟨_, _, mem'.closeGroup 1 (base + offset), path, List.take_prefix _ _,
        Nat.le_of_eq hlen.symm, hrun, rfl, ?_, ?_⟩
      · exact hc.of_held hheld
      · rwa [hlen]
    · obtain ⟨y, mem₂, rfl, hc₂, hmove⟩ := hm.exists_of_moved he hplain hanchor hx hone hc
      have hy : base + y.offset ≤ subject.length := hp.offset_le_size
      have hm₀ := hmove _ (List.prefix_refl _) (by omega)
      obtain ⟨nd, hn, hynd⟩ := hm₀.exists_onto
      obtain ⟨text, run, mem₁, rest, htext, hle', hrun, rfl, hc₁, hrest⟩ :=
        ih (onto_lt_size hn hynd) (hheld.move hm₀) hc₂ rfl
      exact ⟨text, x :: run, mem₁, rest, htext, Nat.le_trans hm₀.offset_le hle',
        .move (hmove text htext hle') hrun, rfl, hc₁, hrest⟩

end

end PatternGraph
