import PatternGraph.Proofs.Search.Mirror
import PatternGraph.Proofs.Semantics.Backtracking
import PatternGraph.Proofs.Semantics.Counting

/-!
# The search backtracks along the tree

Where every loop reads something on each pass, no place is ever come to twice on a path, and the
search goes through its graph exactly as the tree of the pattern is backtracked through.

* `State.Behind`: all marks are behind the place that is about to be come to;
* `Agrees`, `AgreesInTurn`: the search from a place, or from one place after the other, finds what
  is given;
* **`agrees_of_moves`**: a search from a place is one from its moves in turn;
* `Continues`: what is tried at the end of a part is what the search finds there;
* **`agrees_atom`**, **`agrees_branches`**, **`agrees_branch`**: then the search from its entries
  finds what the part tries;
* **`captures?_eq_of_loopsRead`**: a whole pattern.
-/

namespace PatternGraph

section

variable {g : Graph} {subject : Array Char} {st : State} {mem : Memory} {p q : Place}
  {mem' : Memory} {r r' : Option Groups}

/-! ## The latest instances -/

@[simp] theorem Memory.latest_empty : Memory.empty.latest = Groups.unset := rfl

@[simp] theorem Memory.latest_openGroup (k offset : Nat) :
    (mem.openGroup k offset).latest = Groups.openAt mem.latest k offset := by
  funext i
  simp only [Memory.latest, Memory.openGroup, Groups.openAt]
  by_cases h : i = k
  · subst h; rw [Function.update_self, Function.update_self]; rfl
  · rw [Function.update_of_ne h, Function.update_of_ne h]; rfl

theorem Memory.latest_closeGroup {k : Nat} (hk : mem.captures k ≠ []) (offset : Nat) :
    (mem.closeGroup k offset).latest = Groups.closeAt mem.latest k offset := by
  funext i
  simp only [Memory.latest, Memory.closeGroup, Groups.closeAt]
  by_cases h : i = k
  · subst h
    rw [Function.update_self, Function.update_self]
    cases hc : mem.captures i with
    | nil => exact absurd hc hk
    | cons s rest => rfl
  · rw [Function.update_of_ne h, Function.update_of_ne h]; rfl

/-! ## Marks behind a place -/

/-- Whatever is marked lies at an earlier offset, or leads to the place along quiet edges. -/
def State.Behind (g : Graph) (st : State) (p : Place) : Prop :=
  ∀ q, st.Marked q → q.offset < p.offset ∨
    q.offset = p.offset ∧ Relation.TransGen (Quiet g.nodes) q.node p.node

theorem State.Behind.not_marked (h : st.Behind g p) (hs : Settles g.nodes p.node) :
    ¬ st.Marked p := by
  intro hm
  rcases h p hm with hlt | ⟨-, hq⟩
  · exact Nat.lt_irrefl _ hlt
  · exact hs.not_transGen hq

/-- Once the place itself has been marked, the marks are behind what it moves on to. -/
theorem State.Behind.move {st' : State} (h : st.Behind g p) (hm : Move g subject p mem q mem')
    (hst : ∀ x, st'.Marked x ↔ x = p ∨ st.Marked x) : st'.Behind g q := by
  intro x hx
  rcases hm.lt_or_quiet with hlt | ⟨heq, hq⟩
  · left
    rcases (hst x).1 hx with rfl | hx
    · exact hlt
    · rcases h x hx with hx | ⟨hx, -⟩ <;> omega
  · rcases (hst x).1 hx with rfl | hx
    · exact .inr ⟨heq, .single hq⟩
    · rcases h x hx with hx | ⟨hx, ht⟩
      · left; omega
      · exact .inr ⟨hx.trans heq, ht.tail hq⟩

/-! ## What the search finds -/

/-- The latest instances in a state are these. -/
def State.Shows (g : Graph) (st : State) (c : Groups) : Prop :=
  ∀ k ≤ g.groups, (st.latest? k).getD {} = c k

theorem Mirrors.shows (h : Mirrors g st mem) : st.Shows g mem.latest := by
  intro k hk
  rw [h.latest? hk, Memory.latest]

/-- However the place is come to, with all marks behind it, the search from it finds `r`. -/
def Agrees (g : Graph) (subject : Array Char) (p : Place) (mem : Memory) (r : Option Groups) :
    Prop :=
  ∀ st, Tracks g subject st p mem → st.Behind g p →
    Option.Rel (State.Shows g) (Visit.descend g subject ⟨p.node, p.offset, st⟩) r

/-- The search from one place after the other finds `r`. -/
inductive AgreesInTurn (g : Graph) (subject : Array Char) :
    List (Place × Memory) → Option Groups → Prop
  | nil : AgreesInTurn g subject [] none
  | cons {x : Place × Memory} {xs : List (Place × Memory)} {r r' : Option Groups} :
    Agrees g subject x.1 x.2 r → AgreesInTurn g subject xs r' →
    AgreesInTurn g subject (x :: xs) (r.or r')

theorem AgreesInTurn.append {xs ys : List (Place × Memory)} (h : AgreesInTurn g subject xs r)
    (h' : AgreesInTurn g subject ys r') : AgreesInTurn g subject (xs ++ ys) (r.or r') := by
  induction h with
  | nil => rw [Option.none_or]; exact h'
  | cons hx _ ih => rw [List.cons_append, Option.or_assoc]; exact .cons hx ih

theorem Agrees.inTurn (h : Agrees g subject p mem r) : AgreesInTurn g subject [(p, mem)] r := by
  rw [← Option.or_none (o := r)]
  exact .cons h .nil

theorem AgreesInTurn.findSome?_descend {xs : List (Place × Memory)}
    (h : AgreesInTurn g subject xs r) (hb : st.Behind g p)
    (hm : ∀ x ∈ xs, Move g subject p mem x.1 x.2) {ws : List Visit}
    (hf : List.Forall₂ (Visit.Follows g subject st p) ws xs) :
    Option.Rel (State.Shows g) (ws.findSome? (·.descend g subject)) r := by
  induction h generalizing ws with
  | nil => cases hf; exact .none
  | @cons x xs a b hx _ ih =>
    cases hf with
    | @cons w _ ws _ hw hf =>
    have hfirst : Option.Rel (State.Shows g) (w.descend g subject) a := by
      have := hx w.state hw.tracks (hb.move (hm x List.mem_cons_self) hw.marked)
      rwa [← hw.place] at this
    have hrest := ih (fun y hy => hm y (List.mem_cons_of_mem _ hy)) hf
    rw [List.findSome?_cons]
    generalize w.descend g subject = found at hfirst ⊢
    cases hfirst with
    | some h => exact .some h
    | none => rw [Option.none_or]; exact hrest

section

variable (hg : g.Fits) (hs : ∀ v, Settles g.nodes v)

include hg hs in
/-- **The search from a place is one from its moves in turn.** -/
theorem agrees_of_moves {nd : Node} (hn : g.nodes[p.node]? = some nd) (hk : nd.kind ≠ .terminal)
    (h : Reaches g subject p mem → AgreesInTurn g subject (moves g subject p mem) r) :
    Agrees g subject p mem r := by
  intro st ht hb
  have hp : p ≠ ⟨g.terminal, subject.size⟩ := by
    rintro rfl
    rw [hg.nodes_terminal] at hn
    cases hn
    exact hk rfl
  obtain ⟨ws, ho, hf⟩ := onward_of_tracks hg ht hp (hb.not_marked (hs p.node))
  rw [Visit.descend_of_ways ho]
  exact (h ht.reaches).findSome?_descend hb (fun x hx => mem_moves.1 hx) hf

/-! ## Parts of the tree -/

/-- Wherever a part may end that begins at `i`, the search from the places behind it finds what `k`
tries, if no passes are counted there that were not counted before. -/
def Continues (g : Graph) (subject : Array Char) (next : List Nat) (i : Nat) (nullable : Bool)
    (counts : Nat → Nat) (k : Continuation) : Prop :=
  ∀ j mem, i ≤ j → j ≤ subject.size → (nullable = false → i < j) → mem.counts = counts →
    AgreesInTurn g subject (places next j mem) (k j mem.latest)

theorem Continues.mono {next : List Nat} {i j : Nat} {n n' : Bool} {counts : Nat → Nat}
    {k : Continuation} (h : Continues g subject next i n counts k) (hij : i ≤ j)
    (hn : n = false → n' = false ∨ i < j) : Continues g subject next j n' counts k := by
  intro l mem hjl hl hn' hc
  refine h l mem (Nat.le_trans hij hjl) hl (fun hf => ?_) hc
  rcases hn hf with h | h
  · exact Nat.lt_of_le_of_lt hij (hn' h)
  · exact Nat.lt_of_lt_of_le h hjl

section

variable {n m i : Nat} {following : List Nat} {k : Continuation}

include hg hs in
theorem agrees_join (hn : g.nodes[m]? = some ⟨.join, following⟩)
    (h : AgreesInTurn g subject (places following i mem) r) : Agrees g subject ⟨m, i⟩ mem r := by
  refine agrees_of_moves hg hs hn (by simp) fun _ => ?_
  rw [moves_join hn]
  exact h

/-- A quantified atom: the search goes over the body as often as the bounds allow. -/
structure Repeats (g : Graph) (subject : Array Char) (a : Atom) (q : Quantifier) (n m : Nat)
    (following : List Nat) : Prop where
  lies : q.LiesAt g.nodes n m following
  reads : q ≠ .optional → a.nullable = false
  body : ∀ (k : Continuation) (i : Nat) (mem : Memory), Idle mem.counts n m → i ≤ subject.size →
    Continues g subject (q.onward n m) i a.nullable mem.counts k →
      Agrees g subject ⟨n, i⟩ mem (a.tries subject k i mem.latest)

namespace Repeats

variable {a : Atom} {q : Quantifier} {counts : Nat → Nat} {count j : Nat}

include hg hs in
theorem join (h : Repeats g subject a q n m following)
    (hf : AgreesInTurn g subject (places following j mem) r) : Agrees g subject ⟨m, j⟩ mem r := by
  have hl := h.lies
  cases q with
  | counted b => exact agrees_join hg hs hl.1 hf
  | _ => exact agrees_join hg hs hl hf

include hg hs in
/-- Behind a pass another one is tried, if the bounds allow it, and then the way out. -/
theorem behind (h : Repeats g subject a q n m following) (hq : q ≠ .optional)
    (hl : q.bounds.mayLoop count) (hidle : Idle counts n (m + q.nodes)) (hnm : n ≤ m)
    (hmem : mem.counts = q.counting m counts count)
    (hnext : q.bounds.mayLoop (count + 1) → ∀ mem' : Memory,
      mem'.counts = q.counting m counts (count + 1) → mem'.latest = mem.latest →
        Agrees g subject ⟨n, j⟩ mem' r)
    (hout : ∀ mem' : Memory, mem'.counts = counts → mem'.latest = mem.latest →
      Agrees g subject ⟨m, j⟩ mem' r') :
    AgreesInTurn g subject (places (q.onward n m) j mem)
      ((if q.bounds.mayLoop (count + 1) then r else none).or
        (if q.bounds.satisfied (count + 1) then r' else none)) := by
  have hlies := h.lies
  cases q with
  | optional => exact absurd rfl hq
  | star | plus =>
    have hone := Nat.le_add_left 1 count
    simp only [Quantifier.bounds, Bounds.mayLoop, Bounds.satisfied, Option.all_none, Nat.zero_le,
      hone, decide_true, if_true]
    exact .cons (hnext rfl mem hmem rfl) (hout mem hmem rfl).inTurn
  | counted b =>
    show AgreesInTurn g subject (places [m + 1] j mem)
      ((if b.mayLoop (count + 1) then r else none).or
        (if b.satisfied (count + 1) then r' else none))
    refine (agrees_of_moves hg hs hlies.2 (by simp) fun _ => ?_).inTurn
    have hcount : mem.counts (m + 1) = count := by rw [hmem]; exact Function.update_self _ _ _
    have hsome : ¬ b.exceeded (count + 1) := Bounds.mayLoop_iff_not_exceeded.1 hl
    have hset : ∀ c, (mem.setCount (m + 1) c).counts = Function.update counts (m + 1) c := by
      intro c
      simp only [Memory.setCount, hmem, Quantifier.counting, Function.update_idem]
    rw [moves_repetition hlies.2, hcount, if_neg hsome]
    refine .append ?_ ?_
    · by_cases hloop : b.mayLoop (count + 1)
      · rw [if_pos hloop, if_pos hloop]
        exact (hnext hloop (mem.setCount (m + 1) (count + 1)) (hset _) rfl).inTurn
      · rw [if_neg hloop, if_neg hloop]
        exact .nil
    · by_cases hsat : b.satisfied (count + 1)
      · rw [if_pos hsat, if_pos hsat]
        refine (hout (mem.setCount (m + 1) 0) ((hset 0).trans ?_) rfl).inTurn
        exact Quantifier.counting_zero (q := .counted b) hidle hnm
      · rw [if_neg hsat, if_neg hsat]
        exact .nil

include hg hs in
/-- **A pass over a body is what the tree tries**, with all the passes that may come behind. -/
theorem pass (h : Repeats g subject a q n m following) (hq : q ≠ .optional)
    (hidle : Idle counts n (m + q.nodes)) (hnm : n ≤ m)
    (hmem : mem.counts = q.counting m counts count) (hi : i ≤ subject.size)
    (hl : q.bounds.mayLoop count) (hk : Continues g subject following i false counts k) :
    Agrees g subject ⟨n, i⟩ mem (a.tries subject
      (q.bounds.repeated subject.size (a.tries subject) k (count + 1)) i mem.latest) := by
  -- the induction is on what is left of the subject, of which every pass reads something
  induction hrest : subject.size - i using Nat.strongRecOn generalizing i count mem with
  | _ rest ih =>
  subst hrest
  refine h.body _ i mem (by rw [hmem]; exact hidle.counting count) hi
    fun j mem' hij hj hlt hc => ?_
  have hlt : i < j := hlt (h.reads hq)
  rw [repeated_eq (fun _ => h.reads hq) hj]
  refine h.behind hg hs hq hl hidle hnm (hc.trans hmem) (fun hl' mem'' hc' hlatest => ?_)
    fun mem'' hc' hlatest => ?_
  · rw [← hlatest]
    exact ih _ (by omega) hc' hj hl' (hk.mono hij fun _ => .inr hlt) rfl
  · rw [← hlatest]
    exact h.join hg hs (hk j mem'' hij hj (fun _ => hlt) hc')

include hg hs in
/-- The first pass over a body, if there may be one at all. -/
theorem first (h : Repeats g subject a q n m following) (hidle : Idle mem.counts n (m + q.nodes))
    (hnm : n ≤ m) (hi : i ≤ subject.size)
    (hk : Continues g subject following i (q.skips || a.nullable) mem.counts k) :
    Agrees g subject ⟨n, i⟩ mem (if q.bounds.mayLoop 0 then a.tries subject
      (q.bounds.repeated subject.size (a.tries subject) k 1) i mem.latest else none) := by
  have hbody : Idle mem.counts n m := hidle.mono (Nat.le_refl n) (Nat.le_add_right m _)
  by_cases hq : q = .optional
  · subst hq
    have hk' : ∀ j c,
        Bounds.repeated ⟨0, some 1⟩ subject.size (a.tries subject) k 1 j c = k j c := by
      intro j c
      rw [Bounds.repeated]
      rfl
    show Agrees g subject ⟨n, i⟩ mem
      (a.tries subject (Bounds.repeated ⟨0, some 1⟩ subject.size (a.tries subject) k 1) i mem.latest)
    rw [funext fun j => funext (hk' j)]
    refine h.body k i mem hbody hi fun j mem' hij hj _ hc => (h.join hg hs ?_).inTurn
    exact hk j mem' hij hj (fun hf => by cases hf) hc
  by_cases hl : q.bounds.mayLoop 0
  · rw [if_pos hl]
    exact h.pass hg hs hq hidle hnm (Quantifier.counting_zero hidle hnm).symm hi hl
      (hk.mono (Nat.le_refl i) fun _ => .inl rfl)
  · -- with `{0,0}` the search fails behind the first pass
    rw [if_neg hl]
    have hlies := h.lies
    cases q with
    | counted b =>
      have hnone : a.tries subject (fun _ _ => none) i mem.latest = none := a.tries_none i _
      rw [← hnone]
      refine h.body _ i mem hbody hi fun j mem' _ _ _ hc => ?_
      refine (agrees_of_moves hg hs hlies.2 (by simp) fun _ => ?_).inTurn
      have hcount : mem'.counts (m + 1) = 0 := by
        rw [hc]
        exact hidle (m + 1) (by omega) (Nat.lt_succ_self _)
      have hexc : b.exceeded (0 + 1) := not_not.1 (mt Bounds.mayLoop_iff_not_exceeded.2 hl)
      rw [moves_repetition hlies.2, hcount, if_pos hexc]
      exact .nil
    | _ => exact absurd rfl hl

include hg hs in
/-- **The ways into a quantified atom are what the tree tries**: one pass more before none. -/
theorem entry (h : Repeats g subject a q n m following) (hidle : Idle mem.counts n (m + q.nodes))
    (hnm : n ≤ m) (hi : i ≤ subject.size)
    (hk : Continues g subject following i (q.skips || a.nullable) mem.counts k) :
    AgreesInTurn g subject (places (if q.skips then [n, m] else [n]) i mem)
      (q.bounds.repeated subject.size (a.tries subject) k 0 i mem.latest) := by
  have hmax : q.bounds.max = none → a.nullable = false := by
    intro hmax
    apply h.reads
    rintro rfl
    cases hmax
  have hfirst := h.first hg hs hidle hnm hi hk
  rw [repeated_eq hmax hi, ← q.skips_eq_satisfied]
  by_cases hskip : q.skips
  · rw [if_pos hskip, if_pos hskip]
    refine .cons hfirst (h.join hg hs ?_).inTurn
    exact hk i mem (Nat.le_refl i) hi (fun hf => by rw [hskip] at hf; cases hf) rfl
  · rw [if_neg hskip, if_neg hskip, Option.or_none]
    exact hfirst.inTurn

end Repeats

end

end

mutual

/-- **The search from an atom finds what the atom tries.** -/
theorem agrees_atom (hg : g.Fits) (hs : ∀ v, Settles g.nodes v) : ∀ (a : Atom) (n : Nat)
    {onward : List Nat} {k : Continuation} {i : Nat} {mem : Memory},
    a.LiesAt g.nodes onward n → a.Every Item.LoopsRead →
    Idle mem.counts n (a.after n) → i ≤ subject.size →
    Continues g subject onward i a.nullable mem.counts k →
      Agrees g subject ⟨n, i⟩ mem (a.tries subject k i mem.latest)
  | .test t, n, onward, k, i, mem, h, _, _, hi, hk => by
    refine agrees_of_moves hg hs h (by simp) fun _ => ?_
    rw [moves_test h, Atom.tries]
    by_cases ht : subject[i]?.any t.accepts
    · rw [if_pos ht, if_pos ht]
      exact hk (i + 1) mem (Nat.le_succ i) (lt_size_of_any ht) (fun _ => Nat.lt_succ_self i) rfl
    · rw [if_neg ht, if_neg ht]
      exact .nil
  | .backref group, n, onward, k, i, mem, h, _, _, hi, hk => by
    refine agrees_of_moves hg hs h (by simp) fun _ => ?_
    rw [moves_backref h, Atom.tries]
    cases hc : (mem.latest group).copyEnd? subject i with
    | none => exact .nil
    | some j =>
      obtain ⟨hij, hj⟩ := Span.offset_le_copyEnd? hc
      exact hk j mem hij hj (fun hf => by cases hf) rfl
  | .group number bs, n, onward, k, i, mem, h, he, hidle, hi, hk => by
    refine agrees_of_moves hg hs h.1 (by simp) fun _ => ?_
    rw [moves_groupOpen h.1, Atom.tries, ← Memory.latest_openGroup]
    refine agrees_branches hg hs bs (n + 2) h.2.2 he (hidle.mono (by omega) (Nat.le_refl _)) hi ?_
    intro j mem' hij hj hlt hc
    refine (agrees_of_moves hg hs h.2.1 (by simp) fun hr => ?_).inTurn
    have hlatest := Memory.latest_closeGroup (hr.captures_of_groupClose hg h.2.1) j
    rw [moves_groupClose h.2.1]
    show AgreesInTurn g subject _ (k j (Groups.closeAt mem'.latest number j))
    rw [← hlatest]
    exact hk j _ hij hj hlt hc

theorem agrees_branches (hg : g.Fits) (hs : ∀ v, Settles g.nodes v) :
    ∀ (bs : List (List Item)) (n : Nat) {close : Nat} {k : Continuation} {i : Nat} {mem : Memory},
    Branches.LieAt g.nodes close bs n →
    Branches.Every Item.LoopsRead bs → Idle mem.counts n (Branches.after bs n) →
    i ≤ subject.size → Continues g subject [close] i (Branches.nullable bs) mem.counts k →
      AgreesInTurn g subject (places (heads close bs n) i mem)
        (Branches.tries subject bs k i mem.latest)
  | [], _, _, _, _, _, _, _, _, _, _ => .nil
  | b :: bs, n, close, k, i, mem, h, he, hidle, hi, hk => by
    have hor : Branches.nullable (b :: bs) = false →
        Branch.nullable b = false ∧ Branches.nullable bs = false := Bool.or_eq_false_iff.1
    rw [heads_cons, places, List.map_append, Branches.tries]
    refine .append ?_ ?_
    · exact agrees_branch hg hs b n h.1 he.1 (hidle.mono (Nat.le_refl n) (Branches.le_after bs _))
        hi (hk.mono (Nat.le_refl i) fun hf => .inl (hor hf).1)
    · exact agrees_branches hg hs bs _ h.2 he.2 (hidle.mono (Branch.le_after b n) (Nat.le_refl _))
        hi (hk.mono (Nat.le_refl i) fun hf => .inl (hor hf).2)

theorem agrees_branch (hg : g.Fits) (hs : ∀ v, Settles g.nodes v) :
    ∀ (b : List Item) (n : Nat) {close : Nat} {k : Continuation} {i : Nat} {mem : Memory},
    Branch.LiesAt g.nodes close b n → Branch.Every Item.LoopsRead b →
    Idle mem.counts n (Branch.after b n) → i ≤ subject.size →
    Continues g subject [close] i (Branch.nullable b) mem.counts k →
      AgreesInTurn g subject (places (entry close b n) i mem)
        (Branch.tries subject b k i mem.latest)
  | [], n, close, k, i, mem, _, _, _, hi, hk =>
    hk i mem (Nat.le_refl i) hi (fun hf => by cases hf) rfl
  | .anchor a :: rest, n, close, k, i, mem, h, he, hidle, hi, hk => by
    refine (agrees_of_moves hg hs h.1 (by simp) fun _ => ?_).inTurn
    rw [moves_anchor h.1, Branch.tries]
    by_cases ha : a.holds subject i
    · rw [if_pos ha, if_pos ha]
      exact agrees_branch hg hs rest _ h.2 he.2 (hidle.mono (Nat.le_succ n) (Nat.le_refl _)) hi hk
    · rw [if_neg ha, if_neg ha]
      exact .nil
  | .atom a none :: rest, n, close, k, i, mem, h, he, hidle, hi, hk => by
    refine (agrees_atom hg hs a n h.1 he.2.1
      (hidle.mono (Nat.le_refl n) (Branch.le_after rest _)) hi ?_).inTurn
    intro j mem' hij hj hlt hc
    refine agrees_branch hg hs rest _ h.2 he.2.2 ?_ hj ?_
    · rw [hc]; exact hidle.mono (a.le_after n) (Nat.le_refl _)
    · rw [hc]
      refine hk.mono hij fun hf => ?_
      exact (Bool.and_eq_false_iff.1 hf).symm.imp_right hlt
  | .atom a (some q) :: rest, n, close, k, i, mem, h, he, hidle, hi, hk => by
    have hrep : Repeats g subject a q n (a.after n) (entry close rest (a.after n + q.nodes)) :=
      ⟨h.2.1, he.1, fun k i mem hidle hi hk => agrees_atom hg hs a n h.1 he.2.1 hidle hi hk⟩
    refine hrep.entry hg hs (hidle.mono (Nat.le_refl n) (Branch.le_after rest _)) (a.le_after n) hi
      ?_
    intro j mem' hij hj hlt hc
    refine agrees_branch hg hs rest _ h.2.2 he.2.2 ?_ hj ?_
    · rw [hc]; exact hidle.mono (Nat.le_trans (a.le_after n) (Nat.le_add_right _ _)) (Nat.le_refl _)
    · rw [hc]
      refine hk.mono hij fun hf => ?_
      exact (Bool.and_eq_false_iff.1 hf).symm.imp_right hlt

end

theorem agrees_terminal (hg : g.Fits) (hs : ∀ v, Settles g.nodes v) {i : Nat} :
    Agrees g subject ⟨g.terminal, i⟩ mem (atEnd subject i mem.latest) := by
  intro st ht hb
  have hm := hb.not_marked (hs g.terminal)
  rw [atEnd]
  by_cases hi : i = subject.size
  · obtain ⟨st', ho, hmirrors⟩ := onward_of_terminal hg ht (by rw [hi]) hm
    rw [Visit.descend_of_arrived ho, if_pos hi, hi,
      ← Memory.latest_closeGroup (ht.reaches.captures_of_terminal hg hg.nodes_terminal)]
    exact .some hmirrors.shows
  · obtain ⟨ws, ho, hf⟩ := onward_of_tracks hg ht (by simpa using hi) hm
    simp only [moves, hg.nodes_terminal] at hf
    cases hf
    rw [Visit.descend_of_ways ho, if_neg hi]
    exact .none

end

/-! ## A whole pattern -/

section

variable {p : Pattern}

/-- **The search along the graph of a pattern finds what its tree gives.** -/
theorem descend_ofPattern (subject : Array Char) (hfits : (Graph.ofPattern p).Fits)
    (hp : Branches.Every Item.LoopsRead p.branches) :
    Option.Rel (State.Shows (Graph.ofPattern p))
      (Visit.descend (Graph.ofPattern p) subject
        ⟨0, 0, .initial (Graph.ofPattern p).size p.groups⟩) (p.captures? subject) := by
  obtain ⟨ho, -, hb⟩ := liesAt_ofPattern p
  have hs := settles_ofPattern hp
  have hstart : Agrees (Graph.ofPattern p) subject ⟨0, 0⟩ .empty (p.captures? subject) := by
    refine agrees_of_moves hfits hs ho (by simp) fun _ => ?_
    rw [moves_groupOpen ho, Pattern.captures?, ← Memory.latest_empty, ← Memory.latest_openGroup]
    refine agrees_branches hfits hs p.branches 2 hb hp (fun _ _ _ => rfl) (Nat.zero_le _) ?_
    intro j mem _ _ _ _
    exact (agrees_terminal hfits hs).inTurn
  refine hstart _ (tracks_initial _ subject) fun q hq => ?_
  exact absurd hq (State.not_marked_initial _ q)

/-- The span of a group that is closed. -/
def Groups.span? (c : Groups) (group : Nat) : Option Span := (some (c group)).filter (·.isDefined)

theorem State.Shows.group? {g : Graph} {st : State} {c : Groups} (h : st.Shows g c) {k : Nat}
    (hk : k ≤ g.groups) : st.group? k = c.span? k := by
  rw [State.group?, Groups.span?, ← h k hk]
  cases st.latest? k with
  | none => rfl
  | some s => rfl

end

/-- **Greedy backtracking.** If every loop of a pattern reads something on each pass, then a match
fails where backtracking along the tree fails, and otherwise gives the spans of all groups, from the
whole match to the last, as the tree does. -/
theorem captures?_eq_of_loopsRead {limits : Limits} {pattern : String} {r : Regex} {p : Pattern}
    (hr : RegexBuilder.build ⟨pattern, limits⟩ = .ok r)
    (hp : Pattern.read limits pattern.toList = .ok p)
    (hl : Branches.Every Item.LoopsRead p.branches) (subject : String) :
    (r.captures? subject).map (fun found => (List.range (r.groups + 1)).map found.span?) =
      (p.captures? subject.toList.toArray).map fun c => (List.range (r.groups + 1)).map c.span? := by
  obtain rfl := eq_of_build hr hp
  have hd := descend_ofPattern subject.toList.toArray
    (Graph.fits_ofPattern (fits_of_read hp)) hl
  have hsearch := search_eq_descend (Graph.ofPattern p) subject.toList.toArray
  rw [show (Graph.ofPattern p).start = 0 from rfl,
    show (Graph.ofPattern p).groups = p.groups from rfl] at hsearch
  simp only [Regex.captures?, Regex.matcher, Matcher.run, Matcher.ofGraph, hsearch]
  generalize Visit.descend _ _ _ = found at hd ⊢
  generalize p.captures? subject.toList.toArray = expected at hd ⊢
  cases hd with
  | none => rfl
  | @some st c hshows =>
    refine congrArg some (List.map_congr_left fun k hk => ?_)
    have hk : k < p.groups + 1 := List.mem_range.1 hk
    rw [← hshows.group? (Nat.le_of_lt_succ hk)]
    simp [Captures.span?, Captures.ofSpans, Matcher.spans, Matcher.group?, Graph.ofPattern, hk]

/-- In `(a|ab)(b*)` the first branch is taken and `b` is left to the loop. -/
theorem captures?_eq_of_loopsRead_firstBranch :
    ∃ r, RegexBuilder.build ⟨"(a|ab)(b*)", {}⟩ = .ok r ∧
      (r.captures? "ab").map (fun found => (List.range (r.groups + 1)).map found.span?) =
        some [some ⟨some 0, some 2⟩, some ⟨some 0, some 1⟩, some ⟨some 1, some 2⟩] := by
  let p : Pattern :=
    ⟨[[.atom (.group 1 [[.atom (.test (.literal 'a')) none],
        [.atom (.test (.literal 'a')) none, .atom (.test (.literal 'b')) none]]) none,
      .atom (.group 2 [[.atom (.test (.literal 'b')) (some .star)]]) none]], 2⟩
  have hr : RegexBuilder.build ⟨"(a|ab)(b*)", {}⟩ =
      .ok ⟨"(a|ab)(b*)", Graph.ofPattern p⟩ := by cbv
  have hp : Pattern.read {} "(a|ab)(b*)".toList = .ok p := by cbv
  have hl : Branches.Every Item.LoopsRead p.branches := by
    simp [p, Branches.Every, Branch.Every, Atom.Every, Item.LoopsRead, Atom.nullable]
  exact ⟨_, hr, (captures?_eq_of_loopsRead hr hp hl "ab").trans (by cbv)⟩

end PatternGraph
