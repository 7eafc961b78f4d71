import PatternGraph.Proofs.Graph.Balance

/-!
# The bodies of repetitions

The nodes of a part follow one another without a gap, and an edge from one of them leads to another
or on to what follows. So a repetition has its body to itself: the only way out of the body goes by
the node that counts.

* `Stays`: an edge leads to a node of a part, or right behind it;
* `mem_entry`, `mem_heads`: the ways into branches do, **`onto_atom`**, `onto_branches`: and so do
  all edges from their nodes;
* **`stays_ofPattern`**: in the graph of a pattern no edge leads to the start;
* `HasBody`: a node counts the passes over an atom, `EntersAt`: there is one way in,
  **`exists_hasBody_ofPattern`**: in the graph of a pattern it is so for every repetition.
-/

namespace PatternGraph

/-! ## Edges from a part -/

/-- The node is one of those from `low` on, below `high`, or it is `close`. -/
def Stays (close low high w : Nat) : Prop := w = close ∨ low ≤ w ∧ w < high

section

variable {close low high w : Nat}

theorem Stays.mono {low' high' : Nat} (h : Stays close low high w) (hl : low' ≤ low)
    (hh : high ≤ high') : Stays close low' high' w :=
  h.imp id fun h => ⟨Nat.le_trans hl h.1, Nat.lt_of_lt_of_le h.2 hh⟩

theorem mem_entry : ∀ {b : Branch} {n : Nat}, w ∈ entry close b n →
    Stays close n (Branch.after b n) w
  | [], _, h => .inl (List.mem_singleton.1 h)
  | .anchor _ :: rest, n, h => by
    obtain rfl := List.mem_singleton.1 h
    exact .inr ⟨Nat.le_refl w, Branch.le_after rest (w + 1)⟩
  | .atom a none :: rest, n, h => by
    obtain rfl := List.mem_singleton.1 h
    exact .inr ⟨Nat.le_refl w, Nat.lt_of_lt_of_le (a.lt_after w) (Branch.le_after rest _)⟩
  | .atom a (some q) :: rest, n, h => by
    have ha := a.lt_after n
    have hq := q.nodes_pos
    have hrest : a.after n + q.nodes ≤ Branch.after (.atom a (some q) :: rest) n :=
      Branch.le_after rest _
    rcases mem_entry_of_quantified h with rfl | ⟨-, rfl⟩
    · exact .inr ⟨Nat.le_refl w, by omega⟩
    · exact .inr ⟨Nat.le_of_lt ha, by omega⟩

theorem mem_heads : ∀ {bs : Branches} {n : Nat}, w ∈ heads close bs n →
    Stays close n (Branches.after bs n) w
  | [], _, h => absurd h List.not_mem_nil
  | b :: bs, n, h => by
    rw [heads_cons] at h
    rcases List.mem_append.1 h with h | h
    · exact (mem_entry h).mono (Nat.le_refl n) (Branches.le_after bs _)
    · exact (mem_heads h).mono (Branch.le_after b n) (Nat.le_refl _)

theorem Quantifier.mem_onward {q : Quantifier} {n m : Nat} (h : w ∈ q.onward n m) :
    Stays n m (m + q.nodes) w := by
  cases q with
  | optional =>
    obtain rfl := List.mem_singleton.1 h
    exact .inr ⟨Nat.le_refl w, Nat.lt_succ_self w⟩
  | star | plus =>
    rcases List.mem_pair.1 h with rfl | rfl
    · exact .inl rfl
    · exact .inr ⟨Nat.le_refl w, Nat.lt_succ_self w⟩
  | counted b =>
    obtain rfl := List.mem_singleton.1 h
    exact .inr ⟨Nat.le_succ m, Nat.lt_succ_self (m + 1)⟩

end

section

variable {ns : Array Node} {v w : Nat} {nd : Node}

/-- From a node of a quantifier an edge leads back to the atom, to the join, or to what follows. -/
theorem onto_quantifier (hn : ns[v]? = some nd) (hw : w ∈ nd.onto) {q : Quantifier}
    {n m : Nat} {following : List Nat} (h : q.LiesAt ns n m following) (h1 : m ≤ v)
    (h2 : v < m + q.nodes) : w ∈ following ∨ w = n ∨ w = m := by
  have hjoin : ∀ {next : List Nat}, ns[m]? = some ⟨.join, next⟩ → v = m → w ∈ next := by
    rintro next hm rfl
    rw [hn] at hm
    cases hm
    exact hw
  cases q with
  | optional | star | plus => exact .inl (hjoin h (Nat.le_antisymm (Nat.le_of_lt_succ h2) h1))
  | counted b =>
    rcases Nat.lt_or_ge m v with hv | hv
    · obtain rfl : v = m + 1 := Nat.le_antisymm (Nat.le_of_lt_succ h2) hv
      have hr := h.2
      rw [hn] at hr
      cases hr
      exact .inr (List.mem_pair.1 hw)
    · exact .inl (hjoin h.1 (Nat.le_antisymm hv h1))

mutual

/-- **An edge from a node of an atom leads to another one, or onward.** -/
theorem onto_atom (hn : ns[v]? = some nd) (hw : w ∈ nd.onto) {onward : List Nat} :
    ∀ (a : Atom) (n : Nat), a.LiesAt ns onward n → n ≤ v → v < a.after n →
      w ∈ onward ∨ n ≤ w ∧ w < a.after n
  | .test t, n, h, h1, h2 => by
    obtain rfl : v = n := Nat.le_antisymm (Nat.le_of_lt_succ h2) h1
    rw [Atom.LiesAt, hn] at h
    cases h
    exact .inl hw
  | .backref k, n, h, h1, h2 => by
    obtain rfl : v = n := Nat.le_antisymm (Nat.le_of_lt_succ h2) h1
    rw [Atom.LiesAt, hn] at h
    cases h
    exact .inl hw
  | .group k bs, n, h, h1, h2 => by
    have hle := Branches.le_after bs (n + 2)
    rw [Atom.after] at h2 ⊢
    rw [Atom.LiesAt] at h
    rcases Nat.lt_or_ge v (n + 2) with hv | hv
    · rcases Nat.lt_or_ge n v with hv' | hv'
      · -- the node that closes the group
        obtain rfl : v = n + 1 := by omega
        rw [hn] at h
        cases h.2.1
        exact .inl hw
      · -- the node that opens it
        obtain rfl : v = n := by omega
        rw [hn] at h
        cases h.1
        rcases mem_heads hw with rfl | hw
        · exact .inr (by omega)
        · exact .inr (by omega)
    · rcases onto_branches hn hw bs (n + 2) h.2.2 hv h2 with rfl | hw
      · exact .inr (by omega)
      · exact .inr (by omega)

theorem onto_branches (hn : ns[v]? = some nd) (hw : w ∈ nd.onto) {close : Nat} :
    ∀ (bs : List (List Item)) (n : Nat), Branches.LieAt ns close bs n → n ≤ v →
      v < Branches.after bs n → Stays close n (Branches.after bs n) w
  | [], n, _, h1, h2 => absurd h2 (Nat.not_lt.2 h1)
  | b :: bs, n, h, h1, h2 => by
    rw [Branches.after] at h2 ⊢
    rcases Nat.lt_or_ge v (Branch.after b n) with hv | hv
    · exact (onto_branch hn hw b n h.1 h1 hv).mono (Nat.le_refl n) (Branches.le_after bs _)
    · exact (onto_branches hn hw bs _ h.2 hv h2).mono (Branch.le_after b n) (Nat.le_refl _)

theorem onto_branch (hn : ns[v]? = some nd) (hw : w ∈ nd.onto) {close : Nat} :
    ∀ (b : List Item) (n : Nat), Branch.LiesAt ns close b n → n ≤ v →
      v < Branch.after b n → Stays close n (Branch.after b n) w
  | [], n, _, h1, h2 => absurd h2 (Nat.not_lt.2 h1)
  | .anchor a :: rest, n, h, h1, h2 => by
    rw [Branch.after] at h2 ⊢
    have hrest : Stays close (n + 1) (Branch.after rest (n + 1)) w := by
      rcases Nat.lt_or_ge n v with hv | hv
      · exact onto_branch hn hw rest (n + 1) h.2 hv h2
      · obtain rfl : v = n := Nat.le_antisymm hv h1
        rw [Branch.LiesAt, hn] at h
        cases h.1
        exact mem_entry hw
    exact hrest.mono (Nat.le_succ n) (Nat.le_refl _)
  | .atom a none :: rest, n, h, h1, h2 => by
    have ha := a.le_after n
    rw [Branch.after] at h2 ⊢
    rcases Nat.lt_or_ge v (a.after n) with hv | hv
    · rcases onto_atom hn hw a n h.1 h1 hv with hw | hw
      · exact (mem_entry hw).mono ha (Nat.le_refl _)
      · exact .inr ⟨hw.1, Nat.lt_of_lt_of_le hw.2 (Branch.le_after rest _)⟩
    · exact (onto_branch hn hw rest _ h.2 hv h2).mono ha (Nat.le_refl _)
  | .atom a (some q) :: rest, n, h, h1, h2 => by
    have ha := a.lt_after n
    have hq := q.nodes_pos
    have hrest := Branch.le_after rest (a.after n + q.nodes)
    rw [Branch.after] at h2 ⊢
    rcases Nat.lt_or_ge v (a.after n) with hv | hv
    · rcases onto_atom hn hw a n h.1 h1 hv with hw | hw
      · rcases Quantifier.mem_onward hw with rfl | hw
        · exact .inr (by omega)
        · exact .inr (by omega)
      · exact .inr (by omega)
    · rcases Nat.lt_or_ge v (a.after n + q.nodes) with hv' | hv'
      · rcases onto_quantifier hn hw h.2.1 hv hv' with hw | rfl | rfl
        · exact (mem_entry hw).mono (by omega) (Nat.le_refl _)
        · exact .inr (by omega)
        · exact .inr (by omega)
      · exact (onto_branch hn hw rest _ h.2.2 hv' h2).mono (by omega) (Nat.le_refl _)

end

end

/-! ## Bodies -/

/-- The node `r` counts the passes over the atom `a`, which begins at `n`. -/
def HasBody (ns : Array Node) (r n : Nat) (a : Atom) : Prop :=
  2 ≤ n ∧ r = a.after n + 1 ∧ a.LiesAt ns [r] n ∧ ∃ b, ns[r]? = some ⟨.repetition b (r - 1), [n]⟩

/-- The node is one of the body that begins at `n`, or it is `r`, which counts the passes over
it. -/
def InLoop (r n v : Nat) : Prop := v = r ∨ n ≤ v ∧ v + 1 < r

/-- An edge from a node from `low` on, below `high`, leads into the loop only at `n`. -/
def EntersAt (ns : Array Node) (r n low high : Nat) : Prop :=
  ∀ (v w : Nat) (nd : Node), low ≤ v → v < high → ns[v]? = some nd → w ∈ nd.onto → InLoop r n w →
    InLoop r n v ∨ w = n

section

variable {ns : Array Node} {r n low mid high close : Nat}

theorem HasBody.lt {a : Atom} (h : HasBody ns r n a) : n < r := by
  have ha := a.lt_after n
  have hr := h.2.1
  omega

theorem not_inLoop_of_stays {w : Nat} (hlt : n < r) (hc : close < n) (h : Stays close low high w)
    (hside : high ≤ n ∨ r < low) : ¬ InLoop r n w := by
  unfold InLoop
  unfold Stays at h
  omega

theorem not_inLoop_entry (hlt : n < r) (hc : close < n) (b : Branch) (m : Nat)
    (hside : Branch.after b m ≤ n ∨ r < m) : ∀ w ∈ entry close b m, ¬ InLoop r n w :=
  fun _ hw => not_inLoop_of_stays hlt hc (mem_entry hw) hside

theorem EntersAt.append (h : EntersAt ns r n low mid) (h' : EntersAt ns r n mid high) :
    EntersAt ns r n low high := by
  intro v w nd h1 h2
  rcases Nat.lt_or_ge v mid with hv | hv
  · exact h v w nd h1 hv
  · exact h' v w nd hv h2

theorem entersAt_node {v : Nat} {nd : Node} (hn : ns[v]? = some nd)
    (h : ∀ w ∈ nd.onto, InLoop r n w → w = n) : EntersAt ns r n v (v + 1) := by
  intro u w x h1 h2 hx hw hl
  obtain rfl : u = v := Nat.le_antisymm (Nat.le_of_lt_succ h2) h1
  rw [hn] at hx
  cases hx
  exact .inr (h w hw hl)

/-! Parts that lie on one side of the loop. -/

section

variable (hlt : n < r) (hc : close < n)

include hlt

include hc in
theorem entersAt_branches {bs : Branches} {m : Nat} (h : Branches.LieAt ns close bs m)
    (hside : Branches.after bs m ≤ n ∨ r < m) : EntersAt ns r n m (Branches.after bs m) :=
  fun _ _ _ h1 h2 hn hw hl => absurd hl
    (not_inLoop_of_stays hlt hc (onto_branches hn hw bs m h h1 h2) hside)

include hc in
theorem entersAt_branch {b : Branch} {m : Nat} (h : Branch.LiesAt ns close b m)
    (hside : Branch.after b m ≤ n ∨ r < m) : EntersAt ns r n m (Branch.after b m) :=
  fun _ _ _ h1 h2 hn hw hl => absurd hl
    (not_inLoop_of_stays hlt hc (onto_branch hn hw b m h h1 h2) hside)

theorem entersAt_atom {a : Atom} {m : Nat} {onward : List Nat} (h : a.LiesAt ns onward m)
    (hside : a.after m ≤ n) (ho : ∀ w ∈ onward, InLoop r n w → w = n) :
    EntersAt ns r n m (a.after m) := by
  intro v w nd h1 h2 hn hw hl
  refine .inr ?_
  rcases onto_atom hn hw a m h h1 h2 with hw | hw
  · exact ho w hw hl
  · unfold InLoop at hl
    omega

omit hlt in
theorem entersAt_quantifier {q : Quantifier} {i m : Nat} {following : List Nat}
    (h : q.LiesAt ns i m following) (hf : ∀ w ∈ following, InLoop r n w → w = n)
    (hi : InLoop r n i → i = n) (hm : ¬ InLoop r n m) : EntersAt ns r n m (m + q.nodes) := by
  intro v w nd h1 h2 hn hw hl
  rcases onto_quantifier hn hw h h1 h2 with hw | rfl | rfl
  · exact .inr (hf w hw hl)
  · exact .inr (hi hl)
  · exact absurd hl hm

end

theorem entersAt_quantified {a : Atom} {q : Quantifier} {rest : Branch} {m : Nat}
    (hlq : q.LiesAt ns m (a.after m) (entry close rest (a.after m + q.nodes)))
    (hatom : EntersAt ns r n m (a.after m)) (hm : InLoop r n m → m = n)
    (hjoin : ¬ InLoop r n (a.after m))
    (hbehind : ∀ w ∈ entry close rest (a.after m + q.nodes), InLoop r n w → w = n)
    (hrest : EntersAt ns r n (a.after m + q.nodes)
      (Branch.after rest (a.after m + q.nodes))) :
    EntersAt ns r n m (Branch.after (.atom a (some q) :: rest) m) ∧
      ∀ w ∈ entry close (.atom a (some q) :: rest) m, InLoop r n w → w = n := by
  have hquantifier := entersAt_quantifier hlq hbehind hm hjoin
  refine ⟨(hatom.append hquantifier).append hrest, fun w hmem hl => ?_⟩
  rcases mem_entry_of_quantified hmem with rfl | ⟨-, rfl⟩
  · exact hm hl
  · exact absurd hl hjoin

end

section

variable {ns : Array Node} {r : Nat} {b : Bounds} {exit : Nat} {next : List Nat}

/-- A repetition among the nodes of a quantifier counts the passes over its atom, and is the last of
them. -/
theorem hasBody_of_quantifier (hr : ns[r]? = some ⟨.repetition b exit, next⟩)
    {a : Atom} {q : Quantifier} {m : Nat} {following : List Nat} (hle : 2 ≤ m)
    (hla : a.LiesAt ns (q.onward m (a.after m)) m) (hlq : q.LiesAt ns m (a.after m) following)
    (h1 : a.after m ≤ r) (h2 : r < a.after m + q.nodes) : HasBody ns r m a ∧ r + 1 = a.after m + q.nodes := by
  have hjoin : ∀ {next : List Nat}, ns[a.after m]? = some ⟨.join, next⟩ → r ≠ a.after m := by
    rintro next hm rfl
    rw [hr] at hm
    cases hm
  cases q with
  | optional | star | plus =>
    exact absurd (Nat.le_antisymm (Nat.le_of_lt_succ h2) h1) (hjoin hlq)
  | counted b' =>
    have hlast : a.after m < r := Nat.lt_of_le_of_ne h1 (hjoin hlq.1).symm
    obtain rfl : r = a.after m + 1 := Nat.le_antisymm (Nat.le_of_lt_succ h2) hlast
    exact ⟨⟨hle, rfl, hla, b', hlq.2⟩, rfl⟩

mutual

theorem exists_hasBody_atom (hr : ns[r]? = some ⟨.repetition b exit, next⟩)
    {onward : List Nat} : ∀ (a : Atom) (m : Nat), 2 ≤ m →
    a.LiesAt ns onward m → m ≤ r → r < a.after m → ∃ n a', HasBody ns r n a' ∧ m + 2 ≤ n ∧
      ((∀ w ∈ onward, ¬ InLoop r n w) → EntersAt ns r n m (a.after m))
  | .test t, m, _, h, h1, h2 => by
    obtain rfl : r = m := Nat.le_antisymm (Nat.le_of_lt_succ h2) h1
    rw [Atom.LiesAt, hr] at h
    cases h
  | .backref k, m, _, h, h1, h2 => by
    obtain rfl : r = m := Nat.le_antisymm (Nat.le_of_lt_succ h2) h1
    rw [Atom.LiesAt, hr] at h
    cases h
  | .group k bs, m, hle, h, h1, h2 => by
    rw [Atom.LiesAt] at h
    rcases Nat.lt_or_ge r (m + 2) with hv | hv
    · rcases Nat.lt_or_ge m r with hv' | hv'
      · obtain rfl : r = m + 1 := by omega
        rw [hr] at h
        cases h.2.1
      · obtain rfl : r = m := by omega
        rw [hr] at h
        cases h.1
    · obtain ⟨n, a', hb, hn, he, hw⟩ := exists_hasBody_branches hr bs (m + 2) (by omega)
        (Nat.lt_succ_self (m + 1)) h.2.2 hv h2
      refine ⟨n, a', hb, hn, fun ho => ?_⟩
      have hopen : EntersAt ns r n m (m + 1) := entersAt_node h.1 hw
      have hclose : EntersAt ns r n (m + 1) (m + 2) :=
        entersAt_node h.2.1 fun w hw hl => absurd hl (ho w hw)
      exact (hopen.append hclose).append he

theorem exists_hasBody_branches (hr : ns[r]? = some ⟨.repetition b exit, next⟩)
    {close : Nat} : ∀ (bs : List (List Item)) (m : Nat), 2 ≤ m →
    close < m → Branches.LieAt ns close bs m → m ≤ r → r < Branches.after bs m →
      ∃ n a, HasBody ns r n a ∧ m ≤ n ∧ EntersAt ns r n m (Branches.after bs m) ∧
        ∀ w ∈ heads close bs m, InLoop r n w → w = n
  | [], m, _, _, _, h1, h2 => absurd h2 (Nat.not_lt.2 h1)
  | b :: bs, m, hle, hc, h, h1, h2 => by
    have hb := Branch.le_after b m
    rcases Nat.lt_or_ge r (Branch.after b m) with hv | hv
    · obtain ⟨n, a, hbody, hn, he, hw⟩ := exists_hasBody_branch hr b m hle hc h.1 h1 hv
      have hlt := hbody.lt
      refine ⟨n, a, hbody, hn, he.append (entersAt_branches hlt (by omega) h.2 (.inr hv)), ?_⟩
      intro w hmem hl
      rw [heads_cons] at hmem
      rcases List.mem_append.1 hmem with hmem | hmem
      · exact hw w hmem hl
      · exact absurd hl (not_inLoop_of_stays hlt (by omega) (mem_heads hmem) (.inr hv))
    · obtain ⟨n, a, hbody, hn, he, hw⟩ :=
        exists_hasBody_branches hr bs _ (by omega) (by omega) h.2 hv h2
      have hlt := hbody.lt
      refine ⟨n, a, hbody, by omega,
        (entersAt_branch hlt (by omega) h.1 (.inl hn)).append he, ?_⟩
      intro w hmem hl
      rw [heads_cons] at hmem
      rcases List.mem_append.1 hmem with hmem | hmem
      · exact absurd hl (not_inLoop_of_stays hlt (by omega) (mem_entry hmem) (.inl hn))
      · exact hw w hmem hl

theorem exists_hasBody_branch (hr : ns[r]? = some ⟨.repetition b exit, next⟩)
    {close : Nat} : ∀ (b : List Item) (m : Nat), 2 ≤ m → close < m →
    Branch.LiesAt ns close b m → m ≤ r → r < Branch.after b m →
      ∃ n a, HasBody ns r n a ∧ m ≤ n ∧ EntersAt ns r n m (Branch.after b m) ∧
        ∀ w ∈ entry close b m, InLoop r n w → w = n
  | [], m, _, _, _, h1, h2 => absurd h2 (Nat.not_lt.2 h1)
  | .anchor a :: rest, m, hle, hc, h, h1, h2 => by
    rcases Nat.lt_or_ge m r with hv | hv
    · obtain ⟨n, a, hbody, hn, he, hw⟩ :=
        exists_hasBody_branch hr rest (m + 1) (by omega) (by omega) h.2 hv h2
      refine ⟨n, a, hbody, by omega, (entersAt_node h.1 hw).append he, fun w hmem hl => ?_⟩
      obtain rfl := List.mem_singleton.1 hmem
      unfold InLoop at hl
      omega
    · obtain rfl : r = m := Nat.le_antisymm hv h1
      rw [Branch.LiesAt, hr] at h
      cases h.1
  | .atom a none :: rest, m, hle, hc, h, h1, h2 => by
    have ha := a.lt_after m
    rcases Nat.lt_or_ge r (a.after m) with hv | hv
    · obtain ⟨n, a', hbody, hn, he⟩ := exists_hasBody_atom hr a m hle h.1 h1 hv
      have hlt := hbody.lt
      have hatom := he fun w hw => not_inLoop_of_stays hlt (by omega) (mem_entry hw) (.inr hv)
      have hrest := entersAt_branch hlt (by omega) h.2 (.inr hv)
      refine ⟨n, a', hbody, by omega, hatom.append hrest, fun w hmem hl => ?_⟩
      obtain rfl := List.mem_singleton.1 hmem
      unfold InLoop at hl
      omega
    · obtain ⟨n, a', hbody, hn, he, hw⟩ :=
        exists_hasBody_branch hr rest _ (by omega) (by omega) h.2 hv h2
      have hlt := hbody.lt
      refine ⟨n, a', hbody, by omega, (entersAt_atom hlt h.1 hn hw).append he, fun w hmem hl => ?_⟩
      obtain rfl := List.mem_singleton.1 hmem
      unfold InLoop at hl
      omega
  | .atom a (some q) :: rest, m, hle, hc, h, h1, h2 => by
    have ha := a.lt_after m
    have hq := q.nodes_pos
    obtain ⟨hla, hlq, hlrest⟩ := h
    rcases Nat.lt_or_ge r (a.after m) with hv | hv
    · -- the loop is inside the atom
      obtain ⟨n, a', hbody, hn, he⟩ := exists_hasBody_atom hr a m hle hla h1 hv
      have hlt := hbody.lt
      have hout : ∀ w, w = m ∨ a.after m ≤ w → ¬ InLoop r n w := by
        intro w hw
        unfold InLoop
        omega
      have hatom := he fun w hw => hout w ((Quantifier.mem_onward hw).imp_right And.left)
      have hclose : close < n := by omega
      have hbehind := not_inLoop_entry hlt hclose rest (a.after m + q.nodes) (.inr (by omega))
      have hrest := entersAt_branch hlt hclose hlrest (.inr (by omega))
      exact ⟨n, a', hbody, by omega, entersAt_quantified hlq hatom
        (fun hl => absurd hl (hout m (.inl rfl))) (hout _ (.inr (Nat.le_refl _)))
        (fun w hw hl => absurd hl (hbehind w hw)) hrest⟩
    rcases Nat.lt_or_ge r (a.after m + q.nodes) with hv' | hv'
    · -- the loop is that of the quantifier
      obtain ⟨hbody, hlast⟩ := hasBody_of_quantifier hr hle hla hlq hv hv'
      have hlt := hbody.lt
      have hcounter : r = a.after m + 1 := hbody.2.1
      have hatom : EntersAt ns r m m (a.after m) :=
        fun _ _ _ h1 h2 _ _ _ => .inl (.inr ⟨h1, by omega⟩)
      have hjoin : ¬ InLoop r m (a.after m) := by
        unfold InLoop
        omega
      have hbehind := not_inLoop_entry hlt hc rest (a.after m + q.nodes) (.inr (by omega))
      have hrest := entersAt_branch hlt hc hlrest (.inr (by omega))
      exact ⟨m, a, hbody, Nat.le_refl m, entersAt_quantified hlq hatom (fun _ => rfl) hjoin
        (fun w hw hl => absurd hl (hbehind w hw)) hrest⟩
    · -- the loop is behind the atom
      obtain ⟨n, a', hbody, hn, he, hw⟩ :=
        exists_hasBody_branch hr rest _ (by omega) (by omega) hlrest hv' h2
      have hlt := hbody.lt
      have hout : ∀ w, w < a.after m + q.nodes → ¬ InLoop r n w := by
        intro w hw
        unfold InLoop
        omega
      have hatom := entersAt_atom hlt hla (by omega) fun w hw hl => absurd hl <| by
        rcases Quantifier.mem_onward hw with rfl | hw
        · exact hout _ (by omega)
        · exact hout _ hw.2
      exact ⟨n, a', hbody, by omega, entersAt_quantified hlq hatom
        (fun hl => absurd hl (hout m (by omega))) (hout _ (by omega)) hw he⟩

end

end

/-- **In the graph of a pattern every repetition has its body**, and the only way into the two of
them is by the first node of the body. -/
theorem exists_hasBody_ofPattern {p : Pattern} {r exit : Nat} {b : Bounds} {next : List Nat}
    (hr : (Graph.ofPattern p).nodes[r]? = some ⟨.repetition b exit, next⟩) :
    ∃ n a, HasBody (Graph.ofPattern p).nodes r n a ∧
      EntersAt (Graph.ofPattern p).nodes r n 0 (Graph.ofPattern p).size := by
  obtain ⟨ho, ht, hb⟩ := liesAt_ofPattern p
  have hlt := (Array.getElem?_eq_some_iff.1 hr).1
  have hsize : (Graph.ofPattern p).nodes.size = Branches.after p.branches 2 :=
    size_layoutBranches 1 p.branches _
  match r, hr, hlt with
  | 0, hr, _ => rw [ho] at hr; cases hr
  | 1, hr, _ => rw [ht] at hr; cases hr
  | r + 2, hr, hlt =>
    obtain ⟨n, a, hbody, -, he, hw⟩ := exists_hasBody_branches hr p.branches 2 (Nat.le_refl 2)
      Nat.one_lt_two hb (Nat.le_add_left 2 r) (hsize ▸ hlt)
    have hends := (entersAt_node ho hw).append (entersAt_node ht fun w hw => by cases hw)
    rw [Graph.size, hsize]
    exact ⟨n, a, hbody, hends.append he⟩

theorem hasBody_ofPattern {p : Pattern} {r exit : Nat} {b : Bounds} {next : List Nat}
    (hr : (Graph.ofPattern p).nodes[r]? = some ⟨.repetition b exit, next⟩) :
    ∃ n a, HasBody (Graph.ofPattern p).nodes r n a := by
  obtain ⟨n, a, hbody, -⟩ := exists_hasBody_ofPattern hr
  exact ⟨n, a, hbody⟩

/-- **An edge leads to the terminal, or to a node behind the two ends.** -/
theorem stays_ofPattern {p : Pattern} {v w : Nat} {nd : Node}
    (hn : (Graph.ofPattern p).nodes[v]? = some nd) (hw : w ∈ nd.onto) :
    Stays 1 2 (Graph.ofPattern p).size w := by
  obtain ⟨ho, ht, hb⟩ := liesAt_ofPattern p
  have hlt := (Array.getElem?_eq_some_iff.1 hn).1
  have hsize : (Graph.ofPattern p).nodes.size = Branches.after p.branches 2 :=
    size_layoutBranches 1 p.branches _
  rw [Graph.size, hsize]
  rw [hsize] at hlt
  match v, hn, hlt with
  | 0, hn, _ => rw [ho] at hn; cases hn; exact mem_heads hw
  | 1, hn, _ => rw [ht] at hn; cases hn; cases hw
  | v + 2, hn, hlt => exact onto_branches hn hw p.branches 2 hb (Nat.le_add_left 2 v) hlt

theorem onto_lt_size {p : Pattern} {v w : Nat} {nd : Node}
    (hn : (Graph.ofPattern p).nodes[v]? = some nd) (hw : w ∈ nd.onto) :
    w < (Graph.ofPattern p).size := by
  rcases stays_ofPattern hn hw with rfl | h
  · exact Graph.one_lt_size_ofPattern p
  · exact h.2

end PatternGraph
