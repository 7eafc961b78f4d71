import PatternGraph.Proofs.Search.Leads
import PatternGraph.Proofs.Semantics.Counting

/-!
# What a pattern matches

Without back references the parts of a pattern relate the offsets of a subject: those between which
they match. A path leads through the graph of a part between two offsets if and only if the part
relates them.

* `Power`: so many steps of a relation;
* `Atom.Denotes`, `Branch.Denotes`, `Branches.Denotes`: the relations of the parts;
* **`denotes_of_leads_atom`**: a path that enters an atom leaves it where the atom ends;
* **`leads_of_denotes_atom`**: where an atom ends a path can leave it;
* **`exists_path_iff_denotes`**: a path leads through the whole graph if and only if the pattern
  relates the two ends of the subject.
-/

namespace PatternGraph

/-! ## Relations on offsets -/

/-- So many steps of a relation one after the other. -/
def Power (R : Nat → Nat → Prop) : Nat → Nat → Nat → Prop
  | 0, i, j => i = j
  | n + 1, i, j => ∃ k, R i k ∧ Power R n k j

mutual

/-- The offsets between which the atom matches. Back references have no place here. -/
def Atom.Denotes (subject : Array Char) : Atom → Nat → Nat → Prop
  | .test t, i, j => subject[i]?.any t.accepts ∧ j = i + 1
  | .backref _, _, _ => False
  | .group _ branches, i, j => Branches.Denotes subject branches i j

/-- The offsets between which one of the branches matches. -/
def Branches.Denotes (subject : Array Char) : List (List Item) → Nat → Nat → Prop
  | [], _, _ => False
  | b :: bs, i, j => Branch.Denotes subject b i j ∨ Branches.Denotes subject bs i j

/-- The offsets between which the items match one after the other. -/
def Branch.Denotes (subject : Array Char) : List Item → Nat → Nat → Prop
  | [], i, j => i = j
  | .anchor a :: rest, i, j => a.holds subject i ∧ Branch.Denotes subject rest i j
  | .atom a none :: rest, i, j => ∃ k, a.Denotes subject i k ∧ Branch.Denotes subject rest k j
  | .atom a (some q) :: rest, i, j =>
    ∃ k, (∃ n, q.bounds.Allows n ∧ Power (a.Denotes subject) n i k) ∧
      Branch.Denotes subject rest k j

end

/-- The item is no back reference. -/
def Item.Regular : Item → Prop
  | .atom (.backref _) _ => False
  | _ => True

/-! ## From paths to offsets -/

section

variable {g : Graph} {subject : Array Char}

section

variable (hg : g.Fits) (hp : g.Plain) {R : Nat → Nat → Prop} {q : Quantifier} {n m : Nat}
  {following : List Nat} {counts : Nat → Nat}

include hg hp

theorem leads_join_iff (hq : q.LiesAt g.nodes n m following) {i len : Nat} :
    Leads g subject [m] i counts (len + 1) ↔ Leads g subject following i counts len := by
  cases q with
  | counted b => exact leads_join hg hp hq.1
  | _ => exact leads_join hg hp hq

theorem leads_following (hq : q.LiesAt g.nodes n m following) {i len : Nat}
    (h : Leads g subject [m] i counts len) : Leads g subject following i counts len := by
  cases len with
  | zero => exact absurd h not_leads_zero
  | succ len => exact ((leads_join_iff hg hp hq).1 h).mono (Nat.le_succ len)

/-- Behind a pass a path goes on as the bounds allow: over the body once more, or on to what
follows. -/
theorem of_leads_onward (hq : q.LiesAt g.nodes n m following) (hnm : n ≤ m)
    (hidle : Idle counts n (m + q.nodes)) {j count len : Nat} (hone : q = .optional → count = 0)
    (h : Leads g subject (q.onward n m) j (q.counting m counts count) len) :
    ¬ q.bounds.exceeded (count + 1) ∧
      (q.bounds.mayLoop (count + 1) ∧ Leads g subject [n] j (q.counting m counts (count + 1)) len ∨
        q.bounds.satisfied (count + 1) ∧ Leads g subject following j counts len) := by
  cases q with
  | optional =>
    obtain rfl := hone rfl
    exact ⟨by decide, .inr ⟨rfl, leads_following hg hp hq h⟩⟩
  | star | plus =>
    obtain ⟨e, he, hpath⟩ := h
    have hlead : Leads g subject [e] j counts len := ⟨e, List.mem_singleton.2 rfl, hpath⟩
    refine ⟨Bool.false_ne_true, ?_⟩
    rcases List.mem_pair.1 he with rfl | rfl
    · exact .inl ⟨rfl, hlead⟩
    · exact .inr ⟨Bounds.satisfied_iff.2 (by simp [Quantifier.bounds]),
        leads_following hg hp hq hlead⟩
  | counted b =>
    cases len with
    | zero => exact absurd h not_leads_zero
    | succ len =>
    have hcount : Quantifier.counting m counts count (.counted b) (m + 1) = count :=
      Function.update_self _ _ _
    have hset : ∀ c, Function.update (Quantifier.counting m counts count (.counted b)) (m + 1) c =
        Quantifier.counting m counts c (.counted b) := fun c => Function.update_idem _ _ _
    have h := (leads_repetition hg hp hq.2).1 h
    rw [hcount, hset, hset, Quantifier.counting_zero hidle hnm] at h
    refine ⟨h.1, h.2.imp (fun h => ⟨h.1, h.2.mono (Nat.le_succ len)⟩) fun h => ⟨h.1, ?_⟩⟩
    exact (leads_following hg hp hq h.2).mono (Nat.le_succ len)

theorem leads_onward (hq : q.LiesAt g.nodes n m following) (hnm : n ≤ m)
    (hidle : Idle counts n (m + q.nodes)) {j count len : Nat} (hone : q = .optional → count = 0)
    (he : ¬ q.bounds.exceeded (count + 1))
    (h : q.bounds.mayLoop (count + 1) ∧
        Leads g subject [n] j (q.counting m counts (count + 1)) len ∨
      q.bounds.satisfied (count + 1) ∧ Leads g subject following j counts len) :
    Leads g subject (q.onward n m) j (q.counting m counts count) (len + 2) := by
  have hjoin : Leads g subject following j counts len → Leads g subject [m] j counts (len + 1) :=
    (leads_join_iff hg hp hq).2
  cases q with
  | optional =>
    obtain rfl := hone rfl
    rcases h with ⟨hl, -⟩ | ⟨-, h⟩
    · cases hl
    · exact (hjoin h).mono (Nat.le_succ _)
  | star | plus =>
    rcases h with ⟨-, h⟩ | ⟨-, h⟩
    · exact (h.mono (Nat.le_add_right len 2)).subset (by simp [Quantifier.onward])
    · exact ((hjoin h).mono (Nat.le_succ _)).subset (by simp [Quantifier.onward])
  | counted b =>
    have hcount : Quantifier.counting m counts count (.counted b) (m + 1) = count :=
      Function.update_self _ _ _
    have hset : ∀ c, Function.update (Quantifier.counting m counts count (.counted b)) (m + 1) c =
        Quantifier.counting m counts c (.counted b) := fun c => Function.update_idem _ _ _
    apply (leads_repetition hg hp hq.2).2
    rw [hcount, hset, hset, Quantifier.counting_zero hidle hnm]
    exact ⟨he, h.imp (fun h => ⟨h.1, h.2.mono (Nat.le_succ len)⟩) fun h => ⟨h.1, hjoin h.2⟩⟩

theorem power_of_leads (hq : q.LiesAt g.nodes n m following) (hnm : n ≤ m)
    (hidle : Idle counts n (m + q.nodes))
    (hatom : ∀ {i len : Nat} {counts : Nat → Nat}, Idle counts n m →
      Leads g subject [n] i counts (len + 1) →
        ∃ j, R i j ∧ Leads g subject (q.onward n m) j counts len)
    {i count len : Nat} (hone : q = .optional → count = 0)
    (h : Leads g subject [n] i (q.counting m counts count) len) :
    ∃ c k, q.bounds.Allows (count + (c + 1)) ∧ Power R (c + 1) i k ∧
      Leads g subject following k counts len := by
  -- the induction is on the length of the path, of which each pass takes some
  induction len generalizing i count with
  | zero => exact absurd h not_leads_zero
  | succ len ih =>
    obtain ⟨j, hij, hj⟩ := hatom (hidle.counting count) h
    obtain ⟨he, ⟨hl, hj⟩ | ⟨hs, hj⟩⟩ := of_leads_onward hg hp hq hnm hidle hone hj
    · have hone' : q = .optional → count + 1 = 0 := by
        rintro rfl
        obtain rfl := hone rfl
        cases hl
      obtain ⟨c, k, hc, hpow, hk⟩ := ih hone' hj
      rw [show count + 1 + (c + 1) = count + (c + 1 + 1) by omega] at hc
      exact ⟨c + 1, k, hc, ⟨j, hij, hpow⟩, hk.mono (Nat.le_succ len)⟩
    · exact ⟨0, j, Bounds.allows_iff.2 ⟨he, hs⟩, ⟨j, hij, rfl⟩, hj.mono (Nat.le_succ len)⟩

theorem leads_of_power (hq : q.LiesAt g.nodes n m following) (hnm : n ≤ m)
    (hidle : Idle counts n (m + q.nodes))
    (hatom : ∀ {i j len : Nat} {counts : Nat → Nat}, Idle counts n m → R i j →
      Leads g subject (q.onward n m) j counts len → ∃ len, Leads g subject [n] i counts len)
    {c i k count len : Nat} (hone : q = .optional → count = 0)
    (hc : q.bounds.Allows (count + (c + 1))) (hpow : Power R (c + 1) i k)
    (h : Leads g subject following k counts len) :
    ∃ len, Leads g subject [n] i (q.counting m counts count) len := by
  induction c generalizing i count with
  | zero =>
    obtain ⟨j, hij, rfl⟩ := hpow
    obtain ⟨he, hs⟩ := Bounds.allows_iff.1 hc
    exact hatom (hidle.counting count) hij
      (leads_onward hg hp hq hnm hidle hone he (.inr ⟨hs, h⟩))
  | succ c ih =>
    obtain ⟨j, hij, hpow⟩ := hpow
    have hl : q.bounds.mayLoop (count + 1) := by
      refine Bounds.mayLoop_iff.2 fun max hmax => ?_
      have := hc.2 max hmax
      omega
    have hone' : q = .optional → count + 1 = 0 := by
      rintro rfl
      obtain rfl := hone rfl
      cases hl
    rw [show count + (c + 1 + 1) = count + 1 + (c + 1) by omega] at hc
    obtain ⟨len', hj⟩ := ih hone' hc hpow
    have he : ¬ q.bounds.exceeded (count + 1) := by
      refine Bounds.not_exceeded_iff.2 fun max hmax => Nat.le_of_lt ?_
      exact Bounds.mayLoop_iff.1 hl max hmax
    exact hatom (hidle.counting count) hij
      (leads_onward hg hp hq hnm hidle hone he (.inl ⟨hl, hj⟩))

end

/-! ## The tree -/

mutual

/-- **A path that enters an atom leaves it where the atom ends.** -/
theorem denotes_of_leads_atom (hg : g.Fits) (hp : g.Plain) {onward : List Nat} :
    ∀ (a : Atom) (n : Nat) {i len : Nat} {counts : Nat → Nat},
    a.LiesAt g.nodes onward n → Item.Regular (.atom a none) → a.Every Item.Regular →
    Idle counts n (a.after n) → Leads g subject [n] i counts (len + 1) →
      ∃ j, a.Denotes subject i j ∧ Leads g subject onward j counts len
  | .test t, n, i, len, counts, h, _, _, _, hl =>
    have ht := (leads_test hg h).1 hl
    ⟨i + 1, ⟨ht.1, rfl⟩, ht.2⟩
  | .backref _, _, _, _, _, _, hr, _, _, _ => hr.elim
  | .group number bs, n, i, len, counts, h, _, he, hidle, hl => by
    have hbs := (leads_groupOpen hg hp h.1).1 hl
    obtain ⟨j, hij, hj⟩ := denotes_of_leads_branches hg hp bs (n + 2) h.2.2 he
      (hidle.mono (Nat.le_add_right n 2) (Nat.le_refl _)) hbs
    cases len with
    | zero => exact absurd hj not_leads_zero
    | succ len => exact ⟨j, hij, ((leads_groupClose hg hp h.2.1).1 hj).mono (Nat.le_succ len)⟩

theorem denotes_of_leads_branches (hg : g.Fits) (hp : g.Plain) {close : Nat} :
    ∀ (bs : List (List Item)) (n : Nat) {i len : Nat} {counts : Nat → Nat},
    Branches.LieAt g.nodes close bs n →
    Branches.Every Item.Regular bs → Idle counts n (Branches.after bs n) →
    Leads g subject (heads close bs n) i counts len →
      ∃ j, Branches.Denotes subject bs i j ∧ Leads g subject [close] j counts len
  | [], _, _, _, _, _, _, _, ⟨_, he, _⟩ => absurd he List.not_mem_nil
  | b :: bs, n, i, len, counts, h, he, hidle, ⟨e, hmem, hl⟩ => by
    rw [heads_cons] at hmem
    rcases List.mem_append.1 hmem with hmem | hmem
    · obtain ⟨j, hij, hj⟩ := denotes_of_leads_branch hg hp b n h.1 he.1
        (hidle.mono (Nat.le_refl n) (Branches.le_after bs _)) ⟨e, hmem, hl⟩
      exact ⟨j, .inl hij, hj⟩
    · obtain ⟨j, hij, hj⟩ := denotes_of_leads_branches hg hp bs _ h.2 he.2
        (hidle.mono (Branch.le_after b n) (Nat.le_refl _)) ⟨e, hmem, hl⟩
      exact ⟨j, .inr hij, hj⟩

theorem denotes_of_leads_branch (hg : g.Fits) (hp : g.Plain) {close : Nat} :
    ∀ (b : List Item) (n : Nat) {i len : Nat} {counts : Nat → Nat},
    Branch.LiesAt g.nodes close b n → Branch.Every Item.Regular b →
    Idle counts n (Branch.after b n) → Leads g subject (entry close b n) i counts len →
      ∃ j, Branch.Denotes subject b i j ∧ Leads g subject [close] j counts len
  | [], _, i, _, _, _, _, _, hl => ⟨i, rfl, hl⟩
  | _ :: _, _, _, 0, _, _, _, _, hl => absurd hl not_leads_zero
  | .anchor a :: rest, n, i, len + 1, counts, h, he, hidle, hl => by
    obtain ⟨ha, hrest⟩ := (leads_anchor hg h.1).1 hl
    obtain ⟨j, hij, hj⟩ := denotes_of_leads_branch hg hp rest (n + 1) h.2 he.2
      (hidle.mono (Nat.le_succ n) (Nat.le_refl _)) hrest
    exact ⟨j, ⟨ha, hij⟩, hj.mono (Nat.le_succ len)⟩
  | .atom a none :: rest, n, i, len + 1, counts, h, he, hidle, hl => by
    obtain ⟨k, hik, hk⟩ := denotes_of_leads_atom hg hp a n h.1 he.1 he.2.1
      (hidle.mono (Nat.le_refl n) (Branch.le_after rest _)) hl
    obtain ⟨j, hkj, hj⟩ := denotes_of_leads_branch hg hp rest _ h.2 he.2.2
      (hidle.mono (a.le_after n) (Nat.le_refl _)) hk
    exact ⟨j, ⟨k, hik, hkj⟩, hj.mono (Nat.le_succ len)⟩
  | .atom a (some q) :: rest, n, i, len + 1, counts, h, he, hidle, ⟨e, hmem, hl⟩ => by
    have hle := a.le_after n
    have hq : Idle counts n (a.after n + q.nodes) :=
      hidle.mono (Nat.le_refl n) (Branch.le_after rest _)
    have hrest : Idle counts (a.after n + q.nodes) (Branch.after rest (a.after n + q.nodes)) :=
      hidle.mono (Nat.le_trans hle (Nat.le_add_right _ _)) (Nat.le_refl _)
    have hreg : Item.Regular (.atom a none) := by cases a <;> exact he.1
    -- either the body is entered, or it is passed over
    have hpass : ∃ c k, q.bounds.Allows c ∧ Power (a.Denotes subject) c i k ∧
        Leads g subject (entry close rest (a.after n + q.nodes)) k counts (len + 1) := by
      rcases mem_entry_of_quantified hmem with rfl | ⟨hs, rfl⟩
      · have hl : Leads g subject [e] i (q.counting (a.after e) counts 0) (len + 1) := by
          rw [Quantifier.counting_zero hq hle]
          exact ⟨e, List.mem_singleton.2 rfl, hl⟩
        obtain ⟨c, k, hc, hpow, hk⟩ := power_of_leads hg hp h.2.1 hle hq
          (fun hidle hl => denotes_of_leads_atom hg hp a e h.1 hreg he.2.1 hidle hl)
          (fun _ => rfl) hl
        exact ⟨_, k, hc, by rw [Nat.zero_add]; exact hpow, hk⟩
      · refine ⟨0, i, ⟨?_, fun _ _ => Nat.zero_le _⟩, rfl, leads_following hg hp h.2.1
          ⟨_, List.mem_singleton.2 rfl, hl⟩⟩
        rw [q.skips_eq_satisfied] at hs
        exact Bounds.satisfied_iff.1 hs
    obtain ⟨c, k, hc, hik, hk⟩ := hpass
    obtain ⟨j, hkj, hj⟩ := denotes_of_leads_branch hg hp rest _ h.2.2 he.2.2 hrest hk
    exact ⟨j, ⟨k, ⟨c, hc, hik⟩, hkj⟩, hj⟩

end

mutual

/-- **Where an atom ends a path can leave it.** -/
theorem leads_of_denotes_atom (hg : g.Fits) (hp : g.Plain) {onward : List Nat} :
    ∀ (a : Atom) (n : Nat) {i j len : Nat} {counts : Nat → Nat},
    a.LiesAt g.nodes onward n → Idle counts n (a.after n) → a.Denotes subject i j →
    Leads g subject onward j counts len →
      ∃ len, Leads g subject [n] i counts len
  | .test t, n, i, j, len, counts, h, _, ⟨ht, hj⟩, hl => by
    subst hj
    exact ⟨len + 1, (leads_test hg h).2 ⟨ht, hl⟩⟩
  | .group number bs, n, i, j, len, counts, h, hidle, hij, hl => by
    obtain ⟨len', hbs⟩ := leads_of_denotes_branches hg hp bs (n + 2) h.2.2
      (hidle.mono (Nat.le_add_right n 2) (Nat.le_refl _)) hij
      ((leads_groupClose hg hp h.2.1).2 hl)
    exact ⟨len' + 1, (leads_groupOpen hg hp h.1).2 hbs⟩

theorem leads_of_denotes_branches (hg : g.Fits) (hp : g.Plain) {close : Nat} :
    ∀ (bs : List (List Item)) (n : Nat) {i j len : Nat} {counts : Nat → Nat},
    Branches.LieAt g.nodes close bs n →
    Idle counts n (Branches.after bs n) → Branches.Denotes subject bs i j →
    Leads g subject [close] j counts len → ∃ len, Leads g subject (heads close bs n) i counts len
  | b :: bs, n, i, j, len, counts, h, hidle, .inl hij, hl => by
    obtain ⟨len', hb⟩ := leads_of_denotes_branch hg hp b n h.1
      (hidle.mono (Nat.le_refl n) (Branches.le_after bs _)) hij hl
    exact ⟨len', hb.subset (by rw [heads_cons]; exact List.subset_append_left _ _)⟩
  | b :: bs, n, i, j, len, counts, h, hidle, .inr hij, hl => by
    obtain ⟨len', hb⟩ := leads_of_denotes_branches hg hp bs _ h.2
      (hidle.mono (Branch.le_after b n) (Nat.le_refl _)) hij hl
    exact ⟨len', hb.subset (by rw [heads_cons]; exact List.subset_append_right _ _)⟩

theorem leads_of_denotes_branch (hg : g.Fits) (hp : g.Plain) {close : Nat} :
    ∀ (b : List Item) (n : Nat) {i j len : Nat} {counts : Nat → Nat},
    Branch.LiesAt g.nodes close b n →
    Idle counts n (Branch.after b n) → Branch.Denotes subject b i j →
    Leads g subject [close] j counts len → ∃ len, Leads g subject (entry close b n) i counts len
  | [], _, _, _, len, _, _, _, hij, hl => by
    cases hij
    exact ⟨len, hl⟩
  | .anchor a :: rest, n, i, j, len, counts, h, hidle, hij, hl => by
    obtain ⟨len', hrest⟩ := leads_of_denotes_branch hg hp rest (n + 1) h.2
      (hidle.mono (Nat.le_succ n) (Nat.le_refl _)) hij.2 hl
    exact ⟨len' + 1, (leads_anchor hg h.1).2 ⟨hij.1, hrest⟩⟩
  | .atom a none :: rest, n, i, j, len, counts, h, hidle, ⟨k, hik, hkj⟩, hl => by
    obtain ⟨len', hrest⟩ := leads_of_denotes_branch hg hp rest _ h.2
      (hidle.mono (a.le_after n) (Nat.le_refl _)) hkj hl
    exact leads_of_denotes_atom hg hp a n h.1
      (hidle.mono (Nat.le_refl n) (Branch.le_after rest _)) hik hrest
  | .atom a (some q) :: rest, n, i, j, len, counts, h, hidle, ⟨k, ⟨c, hc, hik⟩, hkj⟩, hl => by
    have hle := a.le_after n
    have hq : Idle counts n (a.after n + q.nodes) :=
      hidle.mono (Nat.le_refl n) (Branch.le_after rest _)
    obtain ⟨len', hrest⟩ := leads_of_denotes_branch hg hp rest _ h.2.2
      (hidle.mono (Nat.le_trans hle (Nat.le_add_right _ _)) (Nat.le_refl _)) hkj hl
    have hn : ∀ m, m ∈ (if q.skips then [n, a.after n] else [n]) →
        [m] ⊆ entry close (.atom a (some q) :: rest) n := by
      intro m hm
      exact List.cons_subset.2 ⟨hm, List.nil_subset _⟩
    cases c with
    | zero =>
      -- no pass: the body is passed over
      cases hik
      have hs : q.skips := by
        rw [q.skips_eq_satisfied]
        exact Bounds.satisfied_iff.2 hc.1
      exact ⟨len' + 1, ((leads_join_iff hg hp h.2.1).2 hrest).subset
        (hn _ (by rw [if_pos hs]; simp))⟩
    | succ c =>
      rw [← Nat.zero_add (c + 1)] at hc
      obtain ⟨len'', hbody⟩ := leads_of_power hg hp h.2.1 hle hq
        (fun hidle hij hl => leads_of_denotes_atom hg hp a n h.1 hidle hij hl) (fun _ => rfl) hc
        hik hrest
      rw [Quantifier.counting_zero hq hle] at hbody
      refine ⟨len'', hbody.subset (hn n ?_)⟩
      split <;> simp

end

end

/-! ## A whole pattern -/

section

variable {p : Pattern} {subject : Array Char}

theorem Graph.plain_ofPattern (hp : Branches.Every Item.Regular p.branches) :
    (Graph.ofPattern p).Plain := by
  have hkinds : Branches.Every (Item.Yields fun kind => ∀ k, kind ≠ .backref k) p.branches := by
    refine hp.mono fun item h => ?_
    cases item with
    | anchor a => simp [Item.Yields]
    | atom a q =>
      refine ⟨?_, fun x _ => ?_⟩
      · cases a with
        | backref k => exact h.elim
        | _ => simp [Atom.Yields]
      · cases x <;> simp [Quantifier.Yields]
  exact fun i nd h => Graph.kind_ofPattern hkinds (by simp) (by simp) h

/-- **A path leads through the graph if and only if the pattern relates the two ends of the
subject.** -/
theorem exists_path_iff_denotes (hg : (Graph.ofPattern p).Fits)
    (hp : Branches.Every Item.Regular p.branches) :
    (∃ path, Path (Graph.ofPattern p) subject ⟨0, 0⟩ .empty path) ↔
      Branches.Denotes subject p.branches 0 subject.size := by
  obtain ⟨ho, ht, hb⟩ := liesAt_ofPattern p
  have hplain := Graph.plain_ofPattern hp
  have hidle : Idle Memory.empty.counts 2 (Branches.after p.branches 2) := fun _ _ _ => rfl
  constructor
  · rintro ⟨path, hpath⟩
    have hl : Leads (Graph.ofPattern p) subject [0] 0 Memory.empty.counts (path.length + 1) :=
      ⟨0, List.mem_singleton.2 rfl, .empty, path, hpath, rfl, Nat.le_succ _⟩
    obtain ⟨j, hj, e, he, mem, rest, hrest, -, -⟩ := denotes_of_leads_branches hg hplain
      p.branches 2 hb hp hidle ((leads_groupOpen hg hplain ho).1 hl)
    rw [List.mem_singleton] at he
    subst he
    -- nothing leads on from the terminal
    cases hrest with
    | arrive => exact hj
    | move hm =>
      rw [← mem_moves, moves, ht] at hm
      cases hm
  · intro h
    have hend : Leads (Graph.ofPattern p) subject [1] subject.size Memory.empty.counts 1 :=
      ⟨1, List.mem_singleton.2 rfl, .empty, _, .arrive .empty, rfl, Nat.le_refl 1⟩
    obtain ⟨len, hl⟩ := leads_of_denotes_branches hg hplain p.branches 2 hb hidle h hend
    obtain ⟨n, hn, mem, path, hpath, hc, -⟩ := (leads_groupOpen hg hplain ho).2 hl
    rw [List.mem_singleton] at hn
    subst hn
    exact ⟨path, hpath.congr hplain hc⟩

end

end PatternGraph
