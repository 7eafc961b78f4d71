import Mathlib.Data.List.Chain
import PatternGraph.Proofs.Graph.Occurrences
import PatternGraph.Proofs.Graph.Reachable

/-!
# Brackets along the walks of a graph

Read as brackets, the nodes that open and close groups are balanced on every walk, and no group is
opened inside itself. For which groups are open at a node is the same on all walks: it is told by
what is closed on the way to the terminal. So where a group is opened it cannot be open already, or
its node would have been come to before with fewer groups open.

* `Bracket`, `brackets`: the brackets along a walk;
* `Nested`: a balanced sequence in which no group is inside itself;
* `eq_of_balanced`: at a node the same groups are open on all walks;
* `OpenedInTurn`: each of the open groups was opened at its node inside those before it;
* **`nested_of_walk`**: the brackets along a walk are the beginning of a balanced sequence.
-/

namespace PatternGraph

/-- The beginning or the end of a group. The whole match is group 0. -/
inductive Bracket where
  | opens (group : Nat)
  | closes (group : Nat)
deriving DecidableEq

/-- The bracket that a node stands for, if any. -/
def NodeKind.bracket? : NodeKind → Option Bracket
  | .groupOpen k => some (.opens k)
  | .groupClose k => some (.closes k)
  | .terminal => some (.closes 0)
  | _ => none

/-- The brackets along a walk. -/
def brackets (ns : Array Node) (walk : List Nat) : List Bracket :=
  walk.filterMap fun v => ns[v]?.bind (·.kind.bracket?)

/-- With the groups in `opened` open, innermost first, the brackets close all of them, and those
they open as well. No group is opened while it is open. -/
inductive Nested : List Nat → List Bracket → Prop
  | done : Nested [] []
  | opens {k : Nat} {opened : List Nat} {rest : List Bracket} : k ∉ opened →
    Nested (k :: opened) rest → Nested opened (.opens k :: rest)
  | closes {k : Nat} {opened : List Nat} {rest : List Bracket} :
    Nested opened rest → Nested (k :: opened) (.closes k :: rest)

theorem nested_closes (opened : List Nat) : Nested opened (opened.map .closes) := by
  induction opened with
  | nil => exact .done
  | cons k opened ih => exact .closes ih

section

variable {ns : Array Node} {v : Nat} {nd : Node} {opened : List Nat}

/-! ## What is open at a node -/

theorem NodeKind.nest_injective {kind : NodeKind} {a b after : List Nat}
    (ha : kind.nest a = some after) (hb : kind.nest b = some after) : a = b := by
  have hclose : ∀ {k : Nat} {opened : List Nat},
      (NodeKind.groupClose k).nest opened = some after → opened = k :: after := by
    intro k opened h
    cases opened with
    | nil => simp [nest] at h
    | cons i opened =>
      simp only [nest, Option.ite_none_right_eq_some, Option.some.injEq] at h
      rw [h.1, h.2]
  cases kind with
  | groupOpen k =>
    cases ha
    cases hb
    rfl
  | groupClose k => rw [hclose ha, hclose hb]
  | terminal =>
    simp only [nest, Option.ite_none_right_eq_some] at ha hb
    rw [ha.1, hb.1]
  | test t | join | backref k | repetition b e | anchor x =>
    cases ha
    cases hb
    rfl

theorem exists_nest (h : ∀ steps, Balanced ns steps v opened) (hn : ns[v]? = some nd) :
    ∃ after, nd.kind.nest opened = some after ∧
      ∀ w ∈ nd.onto, ∀ steps, Balanced ns steps w after := by
  obtain ⟨after, ha, -⟩ := h 1 nd hn
  refine ⟨after, ha, fun w hw steps => ?_⟩
  obtain ⟨after', ha', hm⟩ := h (steps + 1) nd hn
  rw [ha] at ha'
  cases ha'
  exact hm w hw

variable {close : Nat} (hclose : ns[close]? = some ⟨.terminal, []⟩)

include hclose

/-- **At a node from which the terminal is reached the same groups are open on all walks.** -/
theorem eq_of_balanced {a b : List Nat} (hv : Reachable ns v close)
    (ha : ∀ steps, Balanced ns steps v a) (hb : ∀ steps, Balanced ns steps v b) : a = b := by
  induction hv using Relation.ReflTransGen.head_induction_on generalizing a b with
  | refl =>
    have hend : ∀ {opened : List Nat}, (∀ steps, Balanced ns steps close opened) →
        opened = [0] := by
      intro opened h
      obtain ⟨after, hafter, -⟩ := exists_nest h hclose
      simp only [NodeKind.nest, Option.ite_none_right_eq_some] at hafter
      exact hafter.1
    rw [hend ha, hend hb]
  | head hvw _ ih =>
    obtain ⟨nd, hn, hw⟩ := hvw
    obtain ⟨after, hafter, hm⟩ := exists_nest ha hn
    obtain ⟨after', hafter', hm'⟩ := exists_nest hb hn
    obtain rfl := ih (hm _ hw) (hm' _ hw)
    exact NodeKind.nest_injective hafter hafter'

end

/-! ## Walks -/

/-- Each open group was opened at a node of its own, where the groups before it were open. -/
def OpenedInTurn (ns : Array Node) (opened : List Nat) : Prop :=
  ∀ k outer, (k :: outer) <:+ opened →
    ∃ u next, ns[u]? = some ⟨.groupOpen k, next⟩ ∧ ∀ steps, Balanced ns steps u outer

theorem openedInTurn_nil (ns : Array Node) : OpenedInTurn ns [] := fun _ _ h =>
  absurd (List.eq_nil_of_suffix_nil h) (List.cons_ne_nil _ _)

section

variable {ns : Array Node} {v : Nat} {nd : Node} {opened after : List Nat}

theorem OpenedInTurn.nest (h : OpenedInTurn ns opened) (hv : ∀ steps, Balanced ns steps v opened)
    (hn : ns[v]? = some nd) (ha : nd.kind.nest opened = some after) : OpenedInTurn ns after := by
  obtain ⟨kind, next⟩ := nd
  cases kind with
  | groupOpen k =>
    cases ha
    intro i outer hi
    rcases List.suffix_cons_iff.1 hi with heq | hi
    · cases heq
      exact ⟨v, next, hn, hv⟩
    · exact h i outer hi
  | groupClose k =>
    cases opened with
    | nil => simp [NodeKind.nest] at ha
    | cons i opened =>
      simp only [NodeKind.nest, Option.ite_none_right_eq_some, Option.some.injEq] at ha
      obtain ⟨-, rfl⟩ := ha
      exact fun j outer hj => h j outer (hj.trans (List.suffix_cons _ _))
  | terminal =>
    simp only [NodeKind.nest, Option.ite_none_right_eq_some, Option.some.injEq] at ha
    obtain ⟨-, rfl⟩ := ha
    exact openedInTurn_nil ns
  | test t | join | backref k | repetition b e | anchor x =>
    cases ha
    exact h

variable {close : Nat} (hclose : ns[close]? = some ⟨.terminal, []⟩)
  (hreach : ∀ v < ns.size, Reachable ns v close)
  (hone : ∀ {k u v : Nat} {next next' : List Nat}, ns[u]? = some ⟨.groupOpen k, next⟩ →
    ns[v]? = some ⟨.groupOpen k, next'⟩ → u = v)

include hclose hreach hone

/-- **A group that is opened is not open already.** -/
theorem OpenedInTurn.not_mem (h : OpenedInTurn ns opened)
    (hv : ∀ steps, Balanced ns steps v opened) {k : Nat} {next : List Nat}
    (hn : ns[v]? = some ⟨.groupOpen k, next⟩) : k ∉ opened := by
  intro hk
  obtain ⟨inner, outer, rfl⟩ := List.append_of_mem hk
  obtain ⟨u, next', hu, hbal⟩ := h k outer (List.suffix_append _ _)
  obtain rfl := hone hu hn
  -- the node was come to with the groups in `outer` open, and so it is now
  have hlt := (Array.getElem?_eq_some_iff.1 hn).1
  have hlength := congrArg List.length (eq_of_balanced hclose (hreach u hlt) hbal hv)
  simp only [List.length_append, List.length_cons] at hlength
  omega

/-- The bracket of a node can stand in front of a balanced sequence that closes what is open behind
the node. -/
theorem Nested.bracket (h : OpenedInTurn ns opened) (hv : ∀ steps, Balanced ns steps v opened)
    (hn : ns[v]? = some nd) (ha : nd.kind.nest opened = some after) {rest : List Bracket}
    (hrest : Nested after rest) : Nested opened (nd.kind.bracket?.toList ++ rest) := by
  obtain ⟨kind, next⟩ := nd
  cases kind with
  | groupOpen k =>
    cases ha
    exact .opens (h.not_mem hclose hreach hone hv hn) hrest
  | groupClose k =>
    cases opened with
    | nil => simp [NodeKind.nest] at ha
    | cons i opened =>
      simp only [NodeKind.nest, Option.ite_none_right_eq_some, Option.some.injEq] at ha
      obtain ⟨rfl, rfl⟩ := ha
      exact .closes hrest
  | terminal =>
    simp only [NodeKind.nest, Option.ite_none_right_eq_some, Option.some.injEq] at ha
    obtain ⟨rfl, rfl⟩ := ha
    exact .closes hrest
  | test t | join | backref k | repetition b e | anchor x =>
    cases ha
    exact hrest

/-- **Along a walk the brackets are the beginning of a balanced sequence.** -/
theorem nested_of_walk : ∀ (walk : List Nat) (v : Nat) (opened : List Nat), v < ns.size →
    (v :: walk).IsChain (Edge ns) → (∀ w x, Edge ns w x → x < ns.size) → OpenedInTurn ns opened →
    (∀ steps, Balanced ns steps v opened) →
    ∃ rest, Nested opened (brackets ns (v :: walk) ++ rest)
  | walk, v, opened, hlt, hchain, hvalid, h, hv => by
    have hn : ns[v]? = some ns[v] := Array.getElem?_eq_getElem hlt
    obtain ⟨after, ha, honto⟩ := exists_nest hv hn
    have hafter : ∃ rest, Nested after (brackets ns walk ++ rest) := by
      match walk, hchain with
      | [], _ => exact ⟨after.map .closes, nested_closes after⟩
      | w :: walk, hchain =>
        obtain ⟨hvw, hchain⟩ := List.isChain_cons_cons.1 hchain
        obtain ⟨nd, hnd, hw⟩ := id hvw
        rw [hn] at hnd
        cases hnd
        exact nested_of_walk walk w after (hvalid v w hvw) hchain hvalid (h.nest hv hn ha)
          (honto w hw)
    obtain ⟨rest, hrest⟩ := hafter
    refine ⟨rest, ?_⟩
    have hbrackets : brackets ns (v :: walk) = ns[v].kind.bracket?.toList ++ brackets ns walk := by
      rw [brackets, List.filterMap_cons, hn, Option.bind_some]
      cases ns[v].kind.bracket? <;> rfl
    rw [hbrackets, List.append_assoc]
    exact hrest.bracket hclose hreach hone h hv hn ha

end

end PatternGraph
