import PatternGraph.Proofs.Graph.Fits
import PatternGraph.Proofs.Search.Shortcut

/-!
# Which nodes lead to the end

Without back references, whether a path leads from a node to the end depends on the offset and on
what has been counted. What a node asks for is stated here once for each kind of node, in both
directions.

* `Leads`: from one of some nodes a path leads to the end, in so many places;
* `leads_iff_move`, `leads_iff_of_same`: the path moves on;
* **`leads_test`**, `leads_join`, `leads_groupOpen`, `leads_groupClose`, **`leads_repetition`**,
  `leads_anchor`: what each kind of node asks for.
-/

namespace PatternGraph

/-- From one of the nodes, at the offset and with these counts, a path of `len` places at most leads
to the end. -/
def Leads (g : Graph) (subject : Array Char) (next : List Nat) (i : Nat) (counts : Nat → Nat)
    (len : Nat) : Prop :=
  ∃ n ∈ next, ∃ mem path, Path g subject ⟨n, i⟩ mem path ∧ mem.counts = counts ∧
    path.length ≤ len

section

variable {g : Graph} {subject : Array Char} {n i len : Nat} {next : List Nat}
  {counts : Nat → Nat}

theorem Leads.mono {len' : Nat} (h : Leads g subject next i counts len) (hl : len ≤ len') :
    Leads g subject next i counts len' := by
  obtain ⟨n, hn, mem, path, hp, hc, hlen⟩ := h
  exact ⟨n, hn, mem, path, hp, hc, Nat.le_trans hlen hl⟩

theorem Leads.subset {next' : List Nat} (h : Leads g subject next i counts len)
    (hs : next ⊆ next') : Leads g subject next' i counts len := by
  obtain ⟨n, hn, h⟩ := h
  exact ⟨n, hs hn, h⟩

theorem not_leads_zero : ¬ Leads g subject next i counts 0 := by
  rintro ⟨n, -, mem, path, hp, -, hlen⟩
  cases hp with
  | arrive => cases hlen
  | move => cases hlen

theorem leads_iff_move (hg : g.Fits) {nd : Node} (hn : g.nodes[n]? = some nd)
    (hk : nd.kind ≠ .terminal) : Leads g subject [n] i counts (len + 1) ↔
      ∃ mem q mem' path, mem.counts = counts ∧ Move g subject ⟨n, i⟩ mem q mem' ∧
        Path g subject q mem' path ∧ path.length ≤ len := by
  constructor
  · rintro ⟨m, hm, mem, path, hp, hc, hlen⟩
    rw [List.mem_singleton] at hm
    subst hm
    cases hp with
    | arrive =>
      rw [hg.nodes_terminal] at hn
      cases hn
      exact absurd rfl hk
    | move hm hp => exact ⟨mem, _, _, _, hc, hm, hp, Nat.le_of_succ_le_succ hlen⟩
  · rintro ⟨mem, q, mem', path, hc, hm, hp, hlen⟩
    exact ⟨n, List.mem_singleton.2 rfl, mem, _, .move hm hp, hc, Nat.succ_le_succ hlen⟩

/-! ## One node -/

variable (hg : g.Fits) (hp : g.Plain)

include hg hp

/-- From a node whose moves neither count nor read, a path leads on. -/
theorem leads_iff_of_same {nd : Node} (hn : g.nodes[n]? = some nd) (hk : nd.kind ≠ .terminal)
    (hmove : ∀ {mem : Memory} {q : Place} {mem' : Memory}, Move g subject ⟨n, i⟩ mem q mem' →
      q.node ∈ nd.next ∧ q.offset = i ∧ mem'.counts = mem.counts)
    (hback : ∀ mem : Memory, ∀ m ∈ nd.next, ∃ mem',
      Move g subject ⟨n, i⟩ mem ⟨m, i⟩ mem' ∧ mem'.counts = mem.counts) :
    Leads g subject [n] i counts (len + 1) ↔ Leads g subject nd.next i counts len := by
  rw [leads_iff_move hg hn hk]
  constructor
  · rintro ⟨mem, ⟨m, o⟩, mem', path, hc, hm, hpath, hlen⟩
    obtain ⟨hmem, rfl, hc'⟩ := hmove hm
    exact ⟨m, hmem, mem', path, hpath, hc'.trans hc, hlen⟩
  · rintro ⟨m, hmem, mem, path, hpath, hc, hlen⟩
    obtain ⟨mem', hm, hc'⟩ := hback mem m hmem
    exact ⟨mem, ⟨m, i⟩, mem', path, hc, hm, hpath.congr hp hc'.symm, hlen⟩

theorem leads_join (hn : g.nodes[n]? = some ⟨.join, next⟩) :
    Leads g subject [n] i counts (len + 1) ↔ Leads g subject next i counts len := by
  refine leads_iff_of_same hg hp hn (by simp) (fun hm => ?_) fun _ m hm => ⟨_, .join hn hm, rfl⟩
  rw [← mem_moves, moves_join hn, mem_places] at hm
  obtain ⟨hm, ho, rfl⟩ := hm
  exact ⟨hm, ho, rfl⟩

theorem leads_groupOpen {k : Nat} (hn : g.nodes[n]? = some ⟨.groupOpen k, next⟩) :
    Leads g subject [n] i counts (len + 1) ↔ Leads g subject next i counts len := by
  refine leads_iff_of_same hg hp hn (by simp) (fun hm => ?_) fun _ m hm => ⟨_, .openGroup hn hm, rfl⟩
  rw [← mem_moves, moves_groupOpen hn, mem_places] at hm
  obtain ⟨hm, ho, rfl⟩ := hm
  exact ⟨hm, ho, rfl⟩

theorem leads_groupClose {k : Nat} (hn : g.nodes[n]? = some ⟨.groupClose k, next⟩) :
    Leads g subject [n] i counts (len + 1) ↔ Leads g subject next i counts len := by
  refine leads_iff_of_same hg hp hn (by simp) (fun hm => ?_) fun _ m hm => ⟨_, .closeGroup hn hm, rfl⟩
  rw [← mem_moves, moves_groupClose hn, mem_places] at hm
  obtain ⟨hm, ho, rfl⟩ := hm
  exact ⟨hm, ho, rfl⟩

omit hp in
theorem leads_test {t : CharTest} (hn : g.nodes[n]? = some ⟨.test t, next⟩) :
    Leads g subject [n] i counts (len + 1) ↔
      subject[i]?.any t.accepts ∧ Leads g subject next (i + 1) counts len := by
  rw [leads_iff_move hg hn (by simp)]
  constructor
  · rintro ⟨mem, ⟨m, o⟩, mem', path, hc, hm, hpath, hlen⟩
    rw [← mem_moves, moves_test hn] at hm
    split at hm
    · next ht =>
      obtain ⟨hmem, rfl, rfl⟩ := mem_places.1 hm
      exact ⟨ht, m, hmem, mem', path, hpath, hc, hlen⟩
    · simp at hm
  · rintro ⟨ht, m, hm, mem, path, hpath, hc, hlen⟩
    exact ⟨mem, _, mem, path, hc, .read hn hm ht, hpath, hlen⟩

omit hp in
theorem leads_anchor {a : Anchor} (hn : g.nodes[n]? = some ⟨.anchor a, next⟩) :
    Leads g subject [n] i counts (len + 1) ↔
      a.holds subject i ∧ Leads g subject next i counts len := by
  rw [leads_iff_move hg hn (by simp)]
  constructor
  · rintro ⟨mem, ⟨m, o⟩, mem', path, hc, hm, hpath, hlen⟩
    rw [← mem_moves, moves_anchor hn] at hm
    split at hm
    · next ha =>
      obtain ⟨hmem, rfl, rfl⟩ := mem_places.1 hm
      exact ⟨ha, m, hmem, mem', path, hpath, hc, hlen⟩
    · simp at hm
  · rintro ⟨ha, m, hm, mem, path, hpath, hc, hlen⟩
    exact ⟨mem, _, mem, path, hc, .anchor hn hm ha, hpath, hlen⟩

theorem leads_repetition {b : Bounds} {exit : Nat}
    (hn : g.nodes[n]? = some ⟨.repetition b exit, next⟩) :
    Leads g subject [n] i counts (len + 1) ↔ ¬ b.exceeded (counts n + 1) ∧
      (b.mayLoop (counts n + 1) ∧
          Leads g subject next i (Function.update counts n (counts n + 1)) len ∨
        b.satisfied (counts n + 1) ∧
          Leads g subject [exit] i (Function.update counts n 0) len) := by
  rw [leads_iff_move hg hn (by simp)]
  constructor
  · rintro ⟨mem, ⟨m, o⟩, mem', path, rfl, hm, hpath, hlen⟩
    rw [← mem_moves, moves_repetition hn] at hm
    split at hm
    · simp at hm
    next he =>
    refine ⟨he, ?_⟩
    rcases List.mem_append.1 hm with hm | hm
    · left
      split at hm
      · next hl =>
        obtain ⟨hmem, rfl, rfl⟩ := mem_places.1 hm
        exact ⟨hl, m, hmem, _, path, hpath, rfl, hlen⟩
      · simp at hm
    · right
      split at hm
      · next hs =>
        rw [List.mem_singleton, Prod.mk.injEq, Place.mk.injEq] at hm
        obtain ⟨⟨hexit, rfl⟩, rfl⟩ := hm
        exact ⟨hs, m, List.mem_singleton.2 hexit, _, path, hpath, rfl, hlen⟩
      · simp at hm
  · rintro ⟨he, ⟨hl, m, hm, mem, path, hpath, hc, hlen⟩ | ⟨hs, m, hm, mem, path, hpath, hc, hlen⟩⟩
    · let mem₀ : Memory := { mem with counts := counts }
      have hpath : Path g subject ⟨m, i⟩ (mem₀.setCount n (counts n + 1)) path :=
        hpath.congr hp hc
      exact ⟨mem₀, _, _, path, rfl, .loop hn hm he hl, hpath, hlen⟩
    · let mem₀ : Memory := { mem with counts := counts }
      rw [List.mem_singleton] at hm
      subst hm
      have hpath : Path g subject ⟨m, i⟩ (mem₀.setCount n 0) path := hpath.congr hp hc
      exact ⟨mem₀, _, _, path, rfl, .leave hn he hs, hpath, hlen⟩

end

end PatternGraph
