import Mathlib.Logic.Relation
import PatternGraph.Proofs.Graph.Backward
import PatternGraph.Proofs.Pattern.Nullable

/-!
# Edges that are taken without reading

A part that has to read something shields what lies in front of it: no quiet walk gets through. So
what holds of quiet walks where a part is entered depends on what lies behind only if the part may
match nothing.

* `Quiet`: an edge from a node that is not a test;
* `QuietBackward`: a property of quiet walks, by their length;
  **`QuietBackward.branches`**: it holds where a part is entered;
* `Settles`: all quiet walks from a node come to an end, **`settles_ofPattern`**: that is so for all
  nodes if every loop reads something on each pass;
* `Sparse`, `Few`: quiet walks pass so many repetitions at most, **`not_transGen_repetition`**:
  there is no quiet cycle through a repetition if all of them read something on each pass.
-/

namespace PatternGraph

/-- An edge from a node that reads no character. Back references count as such, since the text of
their group may be empty. -/
def Quiet (ns : Array Node) (v w : Nat) : Prop :=
  ∃ nd, ns[v]? = some nd ∧ (∀ t, nd.kind ≠ .test t) ∧ w ∈ nd.onto

/-! ## Where parts are entered -/

/-- A property of the quiet walks of each length from a node. It holds for tests, it goes backward
along edges except from a repetition, and for a loop it has to be known. -/
structure QuietBackward (ns : Array Node) (P : Item → Prop) (S : Nat → Nat → Prop) : Prop where
  test : ∀ {k n : Nat} {t : CharTest} {next : List Nat}, ns[n]? = some ⟨.test t, next⟩ → S k n
  onto : ∀ {k n : Nat} {nd : Node}, ns[n]? = some nd → (∀ b e, nd.kind ≠ .repetition b e) →
    (∀ w ∈ nd.onto, S k w) → S (k + 1) n
  shorten : ∀ {k n : Nat}, S (k + 1) n → S k n
  loop : ∀ {a : Atom} {q : Quantifier} {n m : Nat} {following : List Nat},
    P (.atom a (some q)) → q.LiesAt ns n m following →
    (∀ k, (a.nullable → ∀ i ∈ q.onward n m, S k i) → S (k + 1) n) →
    ∀ k, ((q.skips || a.nullable) = true → ∀ i ∈ following, S k i) → S k n

namespace QuietBackward

variable {ns : Array Node} {P : Item → Prop} {S : Nat → Nat → Prop}

theorem join (hb : QuietBackward ns P S) {k n m : Nat} {following : List Nat} {q : Quantifier}
    (hq : q.LiesAt ns n m following) (hf : ∀ i ∈ following, S k i) : S (k + 1) m := by
  cases q with
  | counted b => exact hb.onto hq.1 (by simp) hf
  | _ => exact hb.onto hq (by simp) hf

mutual

theorem atom (hb : QuietBackward ns P S) {onward : List Nat} : ∀ (a : Atom) (n k : Nat),
    a.LiesAt ns onward n → a.Every P → (a.nullable → ∀ i ∈ onward, S k i) → S (k + 1) n
  | .test _, _, _, h, _, _ => hb.test h
  | .backref _, _, _, h, _, ho => hb.onto h (by simp) (ho rfl)
  | .group _ bs, n, k, h, he, ho => by
    refine hb.onto h.1 (by simp) (branches hb bs (n + 2) k h.2.2 he fun hn => ?_)
    exact hb.shorten (hb.onto h.2.1 (by simp) (ho hn))

theorem branches (hb : QuietBackward ns P S) {close : Nat} : ∀ (bs : List (List Item)) (n k : Nat),
    Branches.LieAt ns close bs n → Branches.Every P bs → (Branches.nullable bs → S k close) →
      ∀ i ∈ heads close bs n, S k i
  | [], _, _, _, _, _ => by simp
  | b :: bs, n, k, h, he, hc => by
    intro i hi
    rw [heads_cons] at hi
    rw [Branches.nullable, Bool.or_eq_true] at hc
    rcases List.mem_append.1 hi with hi | hi
    · exact branch hb b n k h.1 he.1 (fun hn => hc (.inl hn)) i hi
    · exact branches hb bs _ k h.2 he.2 (fun hn => hc (.inr hn)) i hi

theorem branch (hb : QuietBackward ns P S) {close : Nat} : ∀ (b : List Item) (n k : Nat),
    Branch.LiesAt ns close b n → Branch.Every P b → (Branch.nullable b → S k close) →
      ∀ i ∈ entry close b n, S k i
  | [], _, _, _, _, hc => fun i hi => by rw [List.mem_singleton.1 hi]; exact hc rfl
  | .anchor _ :: rest, n, k, h, he, hc => fun i hi => by
    rw [List.mem_singleton.1 hi]
    exact hb.shorten (hb.onto h.1 (by simp) (branch hb rest _ k h.2 he.2 hc))
  | .atom a none :: rest, n, k, h, he, hc => fun i hi => by
    rw [Branch.nullable, Bool.and_eq_true] at hc
    rw [List.mem_singleton.1 hi]
    exact hb.shorten (atom hb a n k h.1 he.2.1 fun ha =>
      branch hb rest _ k h.2 he.2.2 fun hr => hc ⟨ha, hr⟩)
  | .atom a (some q) :: rest, n, k, h, he, hc => fun i hi => by
    rw [Branch.nullable, Bool.and_eq_true] at hc
    have hf := fun hs => branch hb rest _ k h.2.2 he.2.2 fun hr => hc ⟨hs, hr⟩
    rcases mem_entry_of_quantified hi with rfl | ⟨hs, rfl⟩
    · exact hb.loop he.1 h.2.1 (fun j => atom hb a i j h.1 he.2.1) k hf
    · exact hb.shorten (hb.join h.2.1 (hf (by rw [hs, Bool.true_or])))

end

end QuietBackward

/-! ## Walks that come to an end -/

/-- Every walk along quiet edges from the node comes to an end. -/
def Settles (ns : Array Node) (v : Nat) : Prop := Acc (fun w v => Quiet ns v w) v

section

variable {ns : Array Node} {n v : Nat}

theorem settles_of_onto (h : ∀ nd, ns[n]? = some nd → ∀ w ∈ nd.onto, Settles ns w) :
    Settles ns n := by
  apply Acc.intro
  rintro w ⟨nd, hn, -, hw⟩
  exact h nd hn w hw

theorem Settles.not_transGen (h : Settles ns v) : ¬ Relation.TransGen (Quiet ns) v v := by
  induction h with
  | intro v _ ih =>
    intro hv
    obtain ⟨w, hvw, hwv⟩ := Relation.TransGen.head'_iff.1 hv
    exact ih w hvw (.tail' hwv hvw)

theorem quietBackward_settles (ns : Array Node) :
    QuietBackward ns Item.LoopsRead fun _ => Settles ns where
  test hn := by
    apply Acc.intro
    rintro w ⟨nd, hn', ht, -⟩
    rw [hn] at hn'
    cases hn'
    exact absurd rfl (ht _)
  onto hn _ h := settles_of_onto fun nd hn' => by
    rw [hn] at hn'
    cases hn'
    exact h
  shorten h := h
  loop := by
    intro a q n m following hr hq hatom k hf
    refine hatom k fun ha i hi => ?_
    by_cases hopt : q = .optional
    · subst hopt
      rw [List.mem_singleton.1 hi]
      refine settles_of_onto fun nd hn => ?_
      rw [hq] at hn
      cases hn
      exact hf rfl
    · rw [hr hopt] at ha
      cases ha

end

/-- **In a pattern whose loops read something on every pass, all quiet walks come to an end.** -/
theorem settles_ofPattern {p : Pattern} (hp : Branches.Every Item.LoopsRead p.branches) (v : Nat) :
    Settles (Graph.ofPattern p).nodes v := by
  have hq := quietBackward_settles (Graph.ofPattern p).nodes
  have hb : Backward (Graph.ofPattern p).nodes Item.LoopsRead (Settles (Graph.ofPattern p).nodes) :=
    ⟨settles_of_onto, fun {a _ n _} hr he ha hl hf =>
      hq.loop hr hl (fun k => hq.atom a n k ha he) 0 fun _ => hf⟩
  exact hb.ofPattern hp v

/-! ## Walks that come to few repetitions -/

/-- What is left of a number of repetitions behind a node. -/
def NodeKind.spend : NodeKind → Nat → Option Nat
  | .repetition _ _, 0 => none
  | .repetition _ _, bound + 1 => some bound
  | _, bound => some bound

/-- On every quiet walk of `steps` edges from the node at most `bound` repetitions are passed. -/
def Sparse (ns : Array Node) (bound : Nat) : Nat → Nat → Prop
  | 0, _ => True
  | steps + 1, node => ∀ nd, ns[node]? = some nd → (∀ t, nd.kind ≠ .test t) →
    ∃ rest, nd.kind.spend bound = some rest ∧ ∀ w ∈ nd.onto, Sparse ns rest steps w

section

variable {ns : Array Node} {bound steps n : Nat}

theorem Sparse.of_succ : ∀ {steps bound n : Nat}, Sparse ns bound (steps + 1) n →
    Sparse ns bound steps n
  | 0, _, _, _ => trivial
  | _ + 1, _, _, h => fun nd hn ht =>
    let ⟨rest, hs, hw⟩ := h nd hn ht
    ⟨rest, hs, fun w hmem => (hw w hmem).of_succ⟩

theorem Sparse.mono : ∀ {steps bound bound' n : Nat}, bound ≤ bound' → Sparse ns bound steps n →
    Sparse ns bound' steps n
  | 0, _, _, _, _, _ => trivial
  | steps + 1, bound, bound', n, hle, h => by
    intro nd hn ht
    obtain ⟨rest, hs, hw⟩ := h nd hn ht
    have hspend : ∃ rest', nd.kind.spend bound' = some rest' ∧ rest ≤ rest' := by
      obtain ⟨kind, next⟩ := nd
      cases kind with
      | repetition b exit =>
        cases bound with
        | zero => cases hs
        | succ bound =>
          cases hs
          obtain ⟨k, rfl⟩ := Nat.exists_eq_add_of_le hle
          exact ⟨rest + k, by rw [Nat.add_right_comm]; rfl, Nat.le_add_right _ _⟩
      | _ => cases hs; exact ⟨bound', rfl, hle⟩
    obtain ⟨rest', hs', hle'⟩ := hspend
    exact ⟨rest', hs', fun w hmem => (hw w hmem).mono hle'⟩

theorem sparse_of_onto {nd : Node} {rest : Nat} (hn : ns[n]? = some nd)
    (hs : nd.kind.spend bound = some rest) (h : ∀ w ∈ nd.onto, Sparse ns rest steps w) :
    Sparse ns bound (steps + 1) n := by
  intro nd' hn' _
  rw [hn] at hn'
  cases hn'
  exact ⟨rest, hs, h⟩

/-- No repetition is passed before its body has been read, so only what lies behind a part
counts. -/
theorem quietBackward_sparse (ns : Array Node) (bound : Nat) :
    QuietBackward ns Item.CountsRead (Sparse ns bound) where
  test {k n t next} hn := by
    cases k with
    | zero => trivial
    | succ k =>
      intro nd hn' ht
      rw [hn] at hn'
      cases hn'
      exact absurd rfl (ht t)
  onto {k n nd} hn hk h := by
    refine sparse_of_onto hn ?_ h
    obtain ⟨kind, next⟩ := nd
    cases kind with
    | repetition b exit => exact absurd rfl (hk b exit)
    | _ => rfl
  shorten h := h.of_succ
  loop := by
    intro a q n m following hr hq hatom k hf
    induction k with
    | zero => trivial
    | succ k ih =>
      refine hatom k fun ha i hi => ?_
      have hback := hf (by rw [ha, Bool.or_true])
      have hn : Sparse ns bound k n := ih fun _ i hi => (hback i hi).of_succ
      cases q with
      | optional =>
        rw [List.mem_singleton.1 hi]
        exact (sparse_of_onto hq rfl hback).of_succ.of_succ
      | star | plus =>
        rcases List.mem_pair.1 hi with rfl | rfl
        · exact hn
        · exact (sparse_of_onto hq rfl hback).of_succ.of_succ
      | counted b =>
        rw [show a.nullable = false from hr] at ha
        cases ha

/-- On no quiet walk from the node more than `bound` repetitions are passed. -/
def Few (ns : Array Node) (bound n : Nat) : Prop := ∀ steps, Sparse ns bound steps n

theorem exists_few_of_forall_mem : ∀ {l : List Nat}, (∀ i ∈ l, ∃ bound, Few ns bound i) →
    ∃ bound, ∀ i ∈ l, Few ns bound i
  | [], _ => ⟨0, by simp⟩
  | i :: l, h => by
    obtain ⟨b, hb⟩ := h i List.mem_cons_self
    obtain ⟨b', hb'⟩ := exists_few_of_forall_mem fun j hj => h j (List.mem_cons_of_mem i hj)
    refine ⟨max b b', fun j hj steps => ?_⟩
    rcases List.mem_cons.1 hj with rfl | hj
    · exact (hb steps).mono (Nat.le_max_left _ _)
    · exact (hb' j hj steps).mono (Nat.le_max_right _ _)

/-- One repetition more may be passed from a node than from all those behind it. -/
theorem exists_few_of_onto (h : ∀ nd, ns[n]? = some nd → ∀ w ∈ nd.onto, ∃ bound, Few ns bound w) :
    ∃ bound, Few ns bound n := by
  cases hn : ns[n]? with
  | none =>
    refine ⟨0, fun steps => ?_⟩
    cases steps with
    | zero => trivial
    | succ k =>
      intro nd hn'
      rw [hn] at hn'
      cases hn'
  | some nd =>
    obtain ⟨b, hb⟩ := exists_few_of_forall_mem (h nd hn)
    have hspend : ∃ rest, nd.kind.spend (b + 1) = some rest ∧ b ≤ rest := by
      cases hk : nd.kind with
      | repetition => exact ⟨b, rfl, Nat.le_refl b⟩
      | _ => exact ⟨b + 1, rfl, Nat.le_succ b⟩
    obtain ⟨rest, hs, hle⟩ := hspend
    refine ⟨b + 1, fun steps => ?_⟩
    cases steps with
    | zero => trivial
    | succ k => exact sparse_of_onto hn hs fun w hw => (hb w hw k).mono hle

theorem Few.quiet {v w : Nat} (h : Few ns bound v) (hq : Quiet ns v w) :
    ∃ rest ≤ bound, Few ns rest w ∧
      ∀ b e next, ns[v]? = some ⟨.repetition b e, next⟩ → rest < bound := by
  obtain ⟨nd, hn, ht, hw⟩ := hq
  obtain ⟨rest, hs, -⟩ := h 1 nd hn ht
  refine ⟨rest, ?_, fun k => ?_, fun b e next hn' => ?_⟩
  · cases hk : nd.kind with
    | repetition b e =>
      rw [hk] at hs
      cases bound with
      | zero => cases hs
      | succ bound => cases hs; exact Nat.le_succ rest
    | _ => rw [hk] at hs; cases hs; exact Nat.le_refl bound
  · obtain ⟨rest', hs', hall⟩ := h (k + 1) nd hn ht
    rw [hs] at hs'
    cases hs'
    exact hall w hw
  · rw [hn] at hn'
    cases hn'
    cases bound with
    | zero => cases hs
    | succ bound => cases hs; exact Nat.lt_succ_self rest

theorem Few.walk {v w : Nat} (h : Few ns bound v) (hq : Relation.ReflTransGen (Quiet ns) v w) :
    ∃ rest ≤ bound, Few ns rest w := by
  induction hq with
  | refl => exact ⟨bound, Nat.le_refl bound, h⟩
  | tail _ hq ih =>
    obtain ⟨b, hb, h⟩ := ih
    obtain ⟨rest, hr, h, -⟩ := h.quiet hq
    exact ⟨rest, Nat.le_trans hr hb, h⟩

theorem Few.not_transGen {b : Bounds} {exit : Nat} {next : List Nat}
    (hn : ns[n]? = some ⟨.repetition b exit, next⟩) (h : Few ns bound n) :
    ¬ Relation.TransGen (Quiet ns) n n := by
  induction bound using Nat.strongRecOn with
  | _ bound ih =>
  intro hq
  obtain ⟨w, hnw, hwn⟩ := Relation.TransGen.head'_iff.1 hq
  obtain ⟨rest, -, h', hlt⟩ := h.quiet hnw
  obtain ⟨rest', hle, h'⟩ := h'.walk hwn
  exact ih rest' (Nat.lt_of_le_of_lt hle (hlt b exit next hn)) h' hq

end

/-- **If counted repetitions read something on every pass, none of them is on a quiet cycle.** -/
theorem not_transGen_repetition {p : Pattern} (hp : Branches.Every Item.CountsRead p.branches)
    {r exit : Nat} {b : Bounds} {next : List Nat}
    (hn : (Graph.ofPattern p).nodes[r]? = some ⟨.repetition b exit, next⟩) :
    ¬ Relation.TransGen (Quiet (Graph.ofPattern p).nodes) r r := by
  have hb : Backward (Graph.ofPattern p).nodes Item.CountsRead
      fun v => ∃ bound, Few (Graph.ofPattern p).nodes bound v := by
    refine ⟨exists_few_of_onto, fun {a q n following} hr he ha hl hf => ?_⟩
    obtain ⟨bound, hf⟩ := exists_few_of_forall_mem hf
    have hq := quietBackward_sparse (Graph.ofPattern p).nodes bound
    exact ⟨bound, fun steps => hq.loop hr hl (fun k => hq.atom a n k ha he) steps
      fun _ i hi => hf i hi steps⟩
  obtain ⟨bound, h⟩ := hb.ofPattern hp r
  exact h.not_transGen hn

end PatternGraph
