import Mathlib.Data.List.Forall2
import PatternGraph.Proofs.Graph.Placement
import PatternGraph.Proofs.Pattern.Respelled

/-!
# The graph of a pattern that has been respelled

A quantifier that is spelled as bounds takes one node more, which counts the passes. All other nodes
of the two graphs are twins, and twins lead to twins, with one exception: behind the body of such a
quantifier the second graph goes by the node that counts.

* `Climbs`: pairs of indices that go up on both sides, `Holds`: these and no others;
* `Atom.twins`, `Branch.twins`, `Branches.twins`: the pairs of nodes that are twins;
* `Loop`, `Loop.Between`: a body with the node that counts its passes in the second graph;
* `NodeTwin`: what holds of two nodes that are twins, **`nodeTwin_branches`**;
* **`twins_ofPattern`**: it holds for all nodes of the two graphs.
-/

namespace PatternGraph

/-! ## Pairs that go up -/

/-- The pairs go up on both sides, from `low` on and below `high`. -/
def Climbs : Nat × Nat → List (Nat × Nat) → Nat × Nat → Prop
  | low, [], high => low.1 ≤ high.1 ∧ low.2 ≤ high.2
  | low, x :: xs, high => low.1 ≤ x.1 ∧ low.2 ≤ x.2 ∧ Climbs (x.1 + 1, x.2 + 1) xs high

section

variable {low mid high x y : Nat × Nat} {xs ys : List (Nat × Nat)}

theorem Climbs.le : ∀ {low : Nat × Nat} {xs : List (Nat × Nat)}, Climbs low xs high →
    low.1 ≤ high.1 ∧ low.2 ≤ high.2
  | _, [], h => h
  | _, x :: _, ⟨h1, h2, h⟩ => by
    have hle := h.le
    simp only at hle
    omega

theorem Climbs.mono (h1 : low.1 ≤ mid.1) (h2 : low.2 ≤ mid.2) (h : Climbs mid xs high) :
    Climbs low xs high := by
  cases xs with
  | nil => exact ⟨Nat.le_trans h1 h.1, Nat.le_trans h2 h.2⟩
  | cons x xs => exact ⟨Nat.le_trans h1 h.1, Nat.le_trans h2 h.2.1, h.2.2⟩

theorem Climbs.append : ∀ {low : Nat × Nat} {xs : List (Nat × Nat)}, Climbs low xs mid →
    Climbs mid ys high → Climbs low (xs ++ ys) high
  | _, [], h, h' => h'.mono h.1 h.2
  | _, _ :: _, ⟨h1, h2, h⟩, h' => ⟨h1, h2, h.append h'⟩

theorem Climbs.of_mem : ∀ {low : Nat × Nat} {xs : List (Nat × Nat)}, Climbs low xs high → x ∈ xs →
    (low.1 ≤ x.1 ∧ x.1 < high.1) ∧ low.2 ≤ x.2 ∧ x.2 < high.2
  | _, y :: _, ⟨h1, h2, h⟩, hx => by
    rcases List.mem_cons.1 hx with rfl | hx
    · exact ⟨⟨h1, h.le.1⟩, h2, h.le.2⟩
    · have hmem := h.of_mem hx
      simp only at hmem
      omega

theorem Climbs.eq_iff : ∀ {low : Nat × Nat} {xs : List (Nat × Nat)}, Climbs low xs high → x ∈ xs →
    y ∈ xs → (x.1 = y.1 ↔ x.2 = y.2)
  | _, z :: _, ⟨_, _, h⟩, hx, hy => by
    rcases List.mem_cons.1 hx with rfl | hx' <;> rcases List.mem_cons.1 hy with rfl | hy'
    · exact iff_of_true rfl rfl
    · have hmem := h.of_mem hy'
      simp only at hmem
      omega
    · have hmem := h.of_mem hx'
      simp only at hmem
      omega
    · exact h.eq_iff hx' hy'

/-- The pairs go up, and they are those of `all` that lie in their range on the second side. -/
structure Holds (all xs : List (Nat × Nat)) (low high : Nat × Nat) : Prop where
  climbs : Climbs low xs high
  mem : ∀ x ∈ xs, x ∈ all
  only : ∀ x ∈ all, low.2 ≤ x.2 → x.2 < high.2 → x ∈ xs

theorem Holds.split {all : List (Nat × Nat)} (h : Holds all (xs ++ ys) low high)
    (hx : Climbs low xs mid) (hy : Climbs mid ys high) :
    Holds all xs low mid ∧ Holds all ys mid high := by
  have hlow := hx.le
  have hhigh := hy.le
  refine ⟨⟨hx, fun x hm => h.mem x (List.mem_append_left _ hm), fun x hm h1 h2 => ?_⟩,
    ⟨hy, fun x hm => h.mem x (List.mem_append_right _ hm), fun x hm h1 h2 => ?_⟩⟩
  · rcases List.mem_append.1 (h.only x hm h1 (by omega)) with hm | hm
    · exact hm
    · have := hy.of_mem hm
      omega
  · rcases List.mem_append.1 (h.only x hm (by omega) h2) with hm | hm
    · have := hx.of_mem hm
      omega
    · exact hm

end

/-! ## Twins -/

/-- The twins among the nodes of a quantifier that is the same on both sides. -/
def Quantifier.twins (m m' : Nat) : Quantifier → List (Nat × Nat)
  | .counted _ => [(m, m'), (m + 1, m' + 1)]
  | _ => [(m, m')]

mutual

/-- The twins among the nodes of two atoms that begin at `n` and `n'`. -/
def Atom.twins : Atom → Atom → Nat → Nat → List (Nat × Nat)
  | .group _ bs, .group _ bs', n, n' =>
    (n, n') :: (n + 1, n' + 1) :: Branches.twins bs bs' (n + 2) (n' + 2)
  | _, _, n, n' => [(n, n')]

/-- The twins among the nodes of branches that begin at `n` and `n'`. -/
def Branches.twins : List (List Item) → List (List Item) → Nat → Nat → List (Nat × Nat)
  | b :: bs, b' :: bs', n, n' =>
    Branch.twins b b' n n' ++ Branches.twins bs bs' (Branch.after b n) (Branch.after b' n')
  | _, _, _, _ => []

/-- The twins among the nodes of two branches that begin at `n` and `n'`. -/
def Branch.twins : List Item → List Item → Nat → Nat → List (Nat × Nat)
  | .anchor _ :: rest, .anchor _ :: rest', n, n' =>
    (n, n') :: Branch.twins rest rest' (n + 1) (n' + 1)
  | .atom a none :: rest, .atom a' none :: rest', n, n' =>
    a.twins a' n n' ++ Branch.twins rest rest' (a.after n) (a'.after n')
  | .atom a (some q) :: rest, .atom a' (some q') :: rest', n, n' =>
    a.twins a' n n' ++ (q.twins (a.after n) (a'.after n') ++
      Branch.twins rest rest' (a.after n + q.nodes) (a'.after n' + q'.nodes))
  | _, _, _, _ => []

end

theorem Quantifier.Respelled.climbs {q q' : Quantifier} (h : q.Respelled q') (m m' : Nat) :
    Climbs (m, m') (q.twins m m') (m + q.nodes, m' + q'.nodes) := by
  cases h with
  | same => cases q <;> simp [Quantifier.twins, Quantifier.nodes, Climbs]
  | _ => simp [Quantifier.twins, Quantifier.nodes, Climbs]

mutual

theorem Atom.Respelled.climbs : ∀ {a a' : Atom}, a.Respelled a' → ∀ n n' : Nat,
    Climbs (n, n') (a.twins a' n n') (a.after n, a'.after n')
  | _, _, .test _, n, n' => by simp [Atom.twins, Atom.after, Climbs]
  | _, _, .backref _, n, n' => by simp [Atom.twins, Atom.after, Climbs]
  | _, _, .group _ hbs, n, n' => by
    simpa [Atom.twins, Atom.after, Climbs] using hbs.climbs (n + 2) (n' + 2)

theorem Branches.Respelled.climbs : ∀ {bs bs' : List (List Item)}, Branches.Respelled bs bs' →
    ∀ n n' : Nat, Climbs (n, n') (Branches.twins bs bs' n n')
      (Branches.after bs n, Branches.after bs' n')
  | _, _, .nil, n, n' => by simp [Branches.twins, Branches.after, Climbs]
  | _, _, .cons hb hbs, n, n' => by
    rw [Branches.twins, Branches.after, Branches.after]
    exact (hb.climbs n n').append (hbs.climbs _ _)

theorem Branch.Respelled.climbs : ∀ {b b' : List Item}, Branch.Respelled b b' →
    ∀ n n' : Nat, Climbs (n, n') (Branch.twins b b' n n') (Branch.after b n, Branch.after b' n')
  | _, _, .nil, n, n' => by simp [Branch.twins, Branch.after, Climbs]
  | _, _, .anchor _ hrest, n, n' => by
    simpa [Branch.twins, Branch.after, Climbs] using hrest.climbs (n + 1) (n' + 1)
  | _, _, .atom ha hrest, n, n' => by
    rw [Branch.twins, Branch.after, Branch.after]
    exact (ha.climbs n n').append (hrest.climbs _ _)
  | _, _, .quantified ha hq hrest, n, n' => by
    rw [Branch.twins, Branch.after, Branch.after]
    exact (ha.climbs n n').append ((hq.climbs _ _).append (hrest.climbs _ _))

end

/-! ## The ways into branches -/

/-- The nodes are twins, one by one. -/
abbrev Ways (all : List (Nat × Nat)) (next next' : List Nat) : Prop :=
  List.Forall₂ (fun i i' => (i, i') ∈ all) next next'

theorem Atom.Respelled.first_mem {a a' : Atom} (h : a.Respelled a') (n n' : Nat) :
    (n, n') ∈ a.twins a' n n' := by
  cases h <;> simp [Atom.twins]

theorem Quantifier.first_mem (q : Quantifier) (m m' : Nat) : (m, m') ∈ q.twins m m' := by
  cases q <;> simp [Quantifier.twins]

section

variable {all : List (Nat × Nat)} {close close' : Nat} (hclose : (close, close') ∈ all)

include hclose

theorem ways_entry {b b' : List Item} (h : Branch.Respelled b b') {n n' : Nat}
    (hmem : ∀ x ∈ Branch.twins b b' n n', x ∈ all) :
    Ways all (entry close b n) (entry close' b' n') := by
  cases h with
  | nil => exact .cons hclose .nil
  | anchor x hrest => exact .cons (hmem _ (by simp [Branch.twins])) .nil
  | atom ha hrest =>
    exact .cons (hmem _ (by simp [Branch.twins, ha.first_mem])) .nil
  | @quantified a a' q q' rest rest' ha hq hrest =>
    have hfirst : (n, n') ∈ all := hmem _ (by simp [Branch.twins, ha.first_mem])
    have hjoin : (a.after n, a'.after n') ∈ all := hmem _ (by simp [Branch.twins, q.first_mem])
    simp only [entry, hq.skips_eq]
    cases q.skips with
    | false => exact .cons hfirst .nil
    | true => exact .cons hfirst (.cons hjoin .nil)

theorem ways_heads : ∀ {bs bs' : List (List Item)}, Branches.Respelled bs bs' → ∀ {n n' : Nat},
    (∀ x ∈ Branches.twins bs bs' n n', x ∈ all) → Ways all (heads close bs n) (heads close' bs' n')
  | _, _, .nil, _, _, _ => .nil
  | _, _, .cons hb hbs, n, n', hmem => by
    rw [heads_cons, heads_cons]
    rw [Branches.twins] at hmem
    exact List.rel_append (ways_entry hclose hb fun x hx => hmem x (List.mem_append_left _ hx))
      (ways_heads hbs fun x hx => hmem x (List.mem_append_right _ hx))

end

/-! ## Loops -/

theorem Quantifier.Plain.of_mem_onward {q : Quantifier} {n m i : Nat} (h : q.Plain)
    (hi : i ∈ q.onward n m) : i = n ∨ i = m := by
  cases q with
  | optional => exact .inr (List.mem_singleton.1 hi)
  | star | plus => exact List.mem_pair.1 hi
  | counted b => exact absurd rfl (h b)

/-- The body of a quantifier that is spelled as bounds in the second graph only: its first and its
last node, the join behind it, and their twins. -/
structure Loop where
  quantifier : Quantifier
  first : Nat × Nat
  last : Nat × Nat
  join : Nat × Nat

namespace Loop

/-- The node that counts the passes in the second graph. -/
def counter (l : Loop) : Nat := l.join.2 + 1

/-- The body is a single node, or a group from the node that opens it to the one that closes it. -/
inductive Body (ns : Array Node) (l : Loop) : Prop
  | single : l.last = l.first → (∀ k next, ns[l.first.1]? ≠ some ⟨.groupOpen k, next⟩) → Body ns l
  | group {k : Nat} {next onward : List Nat} : l.last = (l.first.1 + 1, l.first.2 + 1) →
    ns[l.first.1]? = some ⟨.groupOpen k, next⟩ → ns[l.last.1]? = some ⟨.groupClose k, onward⟩ →
    Body ns l

/-- The loop lies in the two graphs, and the node that counts has no twin. -/
structure Between (all : List (Nat × Nat)) (ns ns' : Array Node) (l : Loop) : Prop where
  plain : l.quantifier.Plain
  first : l.first ∈ all
  join : l.join ∈ all
  body : l.Body ns
  last_lt : l.last.1 < l.join.1
  counter : ns'[l.counter]? =
    some ⟨.repetition l.quantifier.bounds l.join.2, [l.first.2]⟩
  fresh : ∀ v, (v, l.counter) ∉ all

theorem Between.eq {all : List (Nat × Nat)} {ns ns' : Array Node} {l k : Loop}
    (h : ∀ x ∈ all, ∀ y ∈ all, x.1 = y.1 ↔ x.2 = y.2) (hl : l.Between all ns ns')
    (hk : k.Between all ns ns') (hc : l.counter = k.counter) :
    l.first = k.first ∧ l.last = k.last ∧ l.join = k.join := by
  have hboth : ∀ {x y : Nat × Nat}, x ∈ all → y ∈ all → x.2 = y.2 → x = y := fun hx hy he =>
    Prod.ext ((h _ hx _ hy).2 he) he
  have hjoin : l.join = k.join := hboth hl.join hk.join (Nat.succ.inj hc)
  have hfirst : l.first = k.first := by
    have hn := hl.counter
    rw [hc, hk.counter] at hn
    simp only [Option.some.injEq, Node.mk.injEq, List.cons.injEq] at hn
    exact hboth hl.first hk.first hn.2.1.symm
  refine ⟨hfirst, ?_, hjoin⟩
  rcases hl.body with ⟨hlast, hnot⟩ | ⟨hlast, hopen, -⟩ <;>
    rcases hk.body with ⟨hlast', hnot'⟩ | ⟨hlast', hopen', -⟩
  · rw [hlast, hlast', hfirst]
  · exact absurd hopen' (hfirst ▸ hnot _ _)
  · exact absurd hopen (hfirst ▸ hnot' _ _)
  · rw [hlast, hlast', hfirst]

end Loop

/-! ## Nodes that are twins -/

/-- The successors of twins are twins, or the first graph goes on from the body of a loop, and the
second to the node that counts its passes. -/
inductive NextTwin (all : List (Nat × Nat)) (ns ns' : Array Node) (x : Nat × Nat) :
    List Nat → List Nat → Prop
  | same {next next' : List Nat} : Ways all next next' → NextTwin all ns ns' x next next'
  | loop {l : Loop} : l.Between all ns ns' → l.last = x →
    NextTwin all ns ns' x (l.quantifier.onward l.first.1 l.join.1) [l.counter]

/-- Twins are of the same kind, and where they count passes they have twins as exits. -/
inductive NodeTwin (all : List (Nat × Nat)) (ns ns' : Array Node) (x : Nat × Nat) : Prop
  | same {kind : NodeKind} {next next' : List Nat} : ns[x.1]? = some ⟨kind, next⟩ →
    ns'[x.2]? = some ⟨kind, next'⟩ → (∀ b exit, kind ≠ .repetition b exit) →
    NextTwin all ns ns' x next next' → NodeTwin all ns ns' x
  | repetition {b : Bounds} {exit exit' : Nat} {next next' : List Nat} :
    ns[x.1]? = some ⟨.repetition b exit, next⟩ → ns'[x.2]? = some ⟨.repetition b exit', next'⟩ →
    (exit, exit') ∈ all → Ways all next next' → NodeTwin all ns ns' x

section

variable {all : List (Nat × Nat)} {ns ns' : Array Node}

/-- Behind an atom with the quantifier `q` on one side and `q'` on the other the successors are
twins. -/
theorem nextTwin_onward {a a' : Atom} {q q' : Quantifier} {n n' : Nat} {following' : List Nat}
    (ha : a.Respelled a') (hq : q.Respelled q') (hn : a.LiesAt ns (q.onward n (a.after n)) n)
    (hq' : q'.LiesAt ns' n' (a'.after n') following') (hfirst : (n, n') ∈ all)
    (hall : Holds all (q.twins (a.after n) (a'.after n')) (a.after n, a'.after n')
      (a.after n + q.nodes, a'.after n' + q'.nodes)) :
    NextTwin all ns ns' (a.last n, a'.last n') (q.onward n (a.after n))
      (q'.onward n' (a'.after n')) := by
  have hjoin : (a.after n, a'.after n') ∈ all := hall.mem _ (q.first_mem _ _)
  rcases hq.eq_or_counted with rfl | ⟨hplain, rfl⟩
  · refine .same ?_
    cases q' with
    | optional => exact .cons hjoin .nil
    | star | plus => exact .cons hfirst (.cons hjoin .nil)
    | counted b => exact .cons (hall.mem _ (by simp [Quantifier.twins])) .nil
  · let l : Loop := ⟨q, (n, n'), (a.last n, a'.last n'), (a.after n, a'.after n')⟩
    have hbody : l.Body ns := by
      cases ha with
      | test t => exact .single rfl fun k next h => by rw [hn] at h; cases h
      | backref k => exact .single rfl fun k next h => by rw [hn] at h; cases h
      | group k hbs => exact .group rfl hn.1 hn.2.1
    have hfresh : ∀ v, (v, l.counter) ∉ all := by
      intro v hv
      have hm := hall.only _ hv (Nat.le_succ _) (Nat.lt_succ_self _)
      have htwins : q.twins (a.after n) (a'.after n') = [(a.after n, a'.after n')] := by
        cases q with
        | counted b => exact absurd rfl (hplain b)
        | _ => rfl
      rw [htwins, List.mem_singleton, Prod.mk.injEq] at hm
      exact absurd hm.2 (Nat.succ_ne_self _)
    exact .loop (l := l) ⟨hplain, hfirst, hjoin, hbody, a.last_lt_after n, hq'.2, hfresh⟩ rfl

theorem nodeTwin_quantifier {q q' : Quantifier} {n n' m m' : Nat} {following following' : List Nat}
    (hq : q.Respelled q') (hn : q.LiesAt ns n m following) (hn' : q'.LiesAt ns' n' m' following')
    (hfirst : (n, n') ∈ all) (hjoin : (m, m') ∈ all) (hnext : Ways all following following') :
    ∀ x ∈ q.twins m m', NodeTwin all ns ns' x := by
  have hjoins : ns[m]? = some ⟨.join, following⟩ → ns'[m']? = some ⟨.join, following'⟩ →
      NodeTwin all ns ns' (m, m') := fun h h' => .same h h' (by simp) (.same hnext)
  intro x hx
  cases hq with
  | same =>
    cases q with
    | counted b =>
      simp only [Quantifier.twins, List.mem_cons, List.not_mem_nil, or_false] at hx
      rcases hx with rfl | rfl
      · exact hjoins hn.1 hn'.1
      · exact .repetition hn.2 hn'.2 hjoin (.cons hfirst .nil)
    | optional | star | plus =>
      obtain rfl := List.mem_singleton.1 hx
      exact hjoins hn hn'
  | optional | star | plus =>
    obtain rfl := List.mem_singleton.1 hx
    exact hjoins hn hn'.1

mutual

/-- **The twins of a part are twins in the graphs**, if what follows the part is. -/
theorem nodeTwin_atom : ∀ {a a' : Atom}, a.Respelled a' →
    ∀ {n n' : Nat} {onward onward' : List Nat}, a.LiesAt ns onward n → a'.LiesAt ns' onward' n' →
    Holds all (a.twins a' n n') (n, n') (a.after n, a'.after n') →
    NextTwin all ns ns' (a.last n, a'.last n') onward onward' →
    ∀ x ∈ a.twins a' n n', NodeTwin all ns ns' x
  | _, _, .test t, n, n', _, _, hn, hn', _, hnext, x, hx => by
    obtain rfl := List.mem_singleton.1 hx
    exact .same hn hn' (by simp) hnext
  | _, _, .backref k, n, n', _, _, hn, hn', _, hnext, x, hx => by
    obtain rfl := List.mem_singleton.1 hx
    exact .same hn hn' (by simp) hnext
  | .group _ bs, .group _ bs', .group k hbs, n, n', _, _, hn, hn', hall, hnext, x, hx => by
    have hclose : (n + 1, n' + 1) ∈ all := hall.mem _ (by simp [Atom.twins])
    have hends : Climbs (n, n') [(n, n'), (n + 1, n' + 1)] (n + 2, n' + 2) := by simp [Climbs]
    have hparts : Holds all ([(n, n'), (n + 1, n' + 1)] ++ Branches.twins bs bs' (n + 2) (n' + 2))
        (n, n') (Branches.after bs (n + 2), Branches.after bs' (n' + 2)) := hall
    have hin := (hparts.split hends (hbs.climbs _ _)).2
    rw [Atom.twins] at hx
    rcases List.mem_cons.1 hx with rfl | hx
    · exact .same hn.1 hn'.1 (by simp) (.same (ways_heads hclose hbs hin.mem))
    rcases List.mem_cons.1 hx with rfl | hx
    · exact .same hn.2.1 hn'.2.1 (by simp) hnext
    · exact nodeTwin_branches hbs hclose hn.2.2 hn'.2.2 hin x hx

theorem nodeTwin_branches {close close' : Nat} : ∀ {bs bs' : List (List Item)},
    Branches.Respelled bs bs' → (close, close') ∈ all → ∀ {n n' : Nat},
    Branches.LieAt ns close bs n → Branches.LieAt ns' close' bs' n' →
    Holds all (Branches.twins bs bs' n n') (n, n') (Branches.after bs n, Branches.after bs' n') →
    ∀ x ∈ Branches.twins bs bs' n n', NodeTwin all ns ns' x
  | _, _, .nil, _, _, _, _, _, _, _, hx => absurd hx List.not_mem_nil
  | _, _, .cons hb hbs, hclose, n, n', hn, hn', hall, x, hx => by
    rw [Branches.twins] at hall hx
    obtain ⟨hhead, htail⟩ := hall.split (hb.climbs n n') (hbs.climbs _ _)
    rcases List.mem_append.1 hx with hx | hx
    · exact nodeTwin_branch hb hclose hn.1 hn'.1 hhead x hx
    · exact nodeTwin_branches hbs hclose hn.2 hn'.2 htail x hx

theorem nodeTwin_branch {close close' : Nat} : ∀ {b b' : List Item}, Branch.Respelled b b' →
    (close, close') ∈ all → ∀ {n n' : Nat}, Branch.LiesAt ns close b n →
    Branch.LiesAt ns' close' b' n' →
    Holds all (Branch.twins b b' n n') (n, n') (Branch.after b n, Branch.after b' n') →
    ∀ x ∈ Branch.twins b b' n n', NodeTwin all ns ns' x
  | _, _, .nil, _, _, _, _, _, _, _, hx => absurd hx List.not_mem_nil
  | _ :: rest, _ :: rest', .anchor _ hrest, hclose, n, n', hn, hn', hall, x, hx => by
    have hend : Climbs (n, n') [(n, n')] (n + 1, n' + 1) := by simp [Climbs]
    have hparts : Holds all ([(n, n')] ++ Branch.twins rest rest' (n + 1) (n' + 1)) (n, n')
        (Branch.after rest (n + 1), Branch.after rest' (n' + 1)) := hall
    have htail := (hparts.split hend (hrest.climbs _ _)).2
    rw [Branch.twins] at hx
    rcases List.mem_cons.1 hx with rfl | hx
    · exact .same hn.1 hn'.1 (by simp) (.same (ways_entry hclose hrest htail.mem))
    · exact nodeTwin_branch hrest hclose hn.2 hn'.2 htail x hx
  | _, _, .atom ha hrest, hclose, n, n', hn, hn', hall, x, hx => by
    rw [Branch.twins] at hall hx
    obtain ⟨hhead, htail⟩ := hall.split (ha.climbs n n') (hrest.climbs _ _)
    rcases List.mem_append.1 hx with hx | hx
    · exact nodeTwin_atom ha hn.1 hn'.1 hhead (.same (ways_entry hclose hrest htail.mem)) x hx
    · exact nodeTwin_branch hrest hclose hn.2 hn'.2 htail x hx
  | _, _, .quantified ha hq hrest, hclose, n, n', hn, hn', hall, x, hx => by
    rw [Branch.twins] at hall hx
    obtain ⟨hbody, hbehind⟩ :=
      hall.split (ha.climbs n n') ((hq.climbs _ _).append (hrest.climbs _ _))
    obtain ⟨hquant, htail⟩ := hbehind.split (hq.climbs _ _) (hrest.climbs _ _)
    have hfirst := hbody.mem _ (ha.first_mem n n')
    rcases List.mem_append.1 hx with hx | hx
    · exact nodeTwin_atom ha hn.1 hn'.1 hbody
        (nextTwin_onward ha hq hn.1 hn'.2.1 hfirst hquant) x hx
    rcases List.mem_append.1 hx with hx | hx
    · exact nodeTwin_quantifier hq hn.2.1 hn'.2.1 hfirst (hquant.mem _ (Quantifier.first_mem _ _ _))
        (ways_entry hclose hrest htail.mem) x hx
    · exact nodeTwin_branch hrest hclose hn.2.2 hn'.2.2 htail x hx

end

end

/-! ## Whole graphs -/

/-- The nodes of the two graphs that are in `all` are twins. -/
structure Twins (all : List (Nat × Nat)) (g g' : Graph) : Prop where
  start : (g.start, g'.start) ∈ all
  eq_iff : ∀ x ∈ all, ∀ y ∈ all, x.1 = y.1 ↔ x.2 = y.2
  node : ∀ x ∈ all, NodeTwin all g.nodes g'.nodes x

/-- **The graphs of a pattern in two spellings are twins.** -/
theorem twins_ofPattern {p p' : Pattern} (h : Branches.Respelled p.branches p'.branches) :
    ∃ all, Twins all (Graph.ofPattern p) (Graph.ofPattern p') := by
  obtain ⟨ho, ht, hn⟩ := liesAt_ofPattern p
  obtain ⟨ho', ht', hn'⟩ := liesAt_ofPattern p'
  let inner := Branches.twins p.branches p'.branches 2 2
  let all : List (Nat × Nat) := (0, 0) :: (1, 1) :: inner
  have hinner : Climbs (2, 2) inner (Branches.after p.branches 2, Branches.after p'.branches 2) :=
    h.climbs 2 2
  have hends : Climbs (0, 0) [(0, 0), (1, 1)] (2, 2) := by simp [Climbs]
  have hclimbs : Climbs (0, 0) all (Branches.after p.branches 2, Branches.after p'.branches 2) :=
    hends.append hinner
  have hmem : ∀ x ∈ inner, x ∈ all := fun x hx => by simp [all, hx]
  have hholds : Holds all inner (2, 2)
      (Branches.after p.branches 2, Branches.after p'.branches 2) := by
    refine ⟨hinner, hmem, fun x hx hlow _ => ?_⟩
    rcases List.mem_cons.1 hx with rfl | hx
    · exact absurd hlow (by decide)
    rcases List.mem_cons.1 hx with rfl | hx
    · exact absurd hlow (by decide)
    · exact hx
  have hclose : (1, 1) ∈ all := by simp [all]
  refine ⟨all, List.mem_cons_self, fun x hx y hy => hclimbs.eq_iff hx hy, fun x hx => ?_⟩
  rcases List.mem_cons.1 hx with rfl | hx
  · exact .same ho ho' (by simp) (.same (ways_heads hclose h hmem))
  rcases List.mem_cons.1 hx with rfl | hx
  · exact .same ht ht' (by simp) (.same .nil)
  · exact nodeTwin_branches h hclose hn hn' hholds x hx

end PatternGraph
