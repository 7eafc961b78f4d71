import PatternGraph.Proofs.Pattern.Nullable
import PatternGraph.Proofs.Pattern.Numbers

/-!
# Quantifiers spelled as bounds

`?`, `*` and `+` say the same as `{0,1}`, `{0,}` and `{1,}`. A pattern is respelled by writing some
of its quantifiers, wherever they stand, in the other way.

* `Quantifier.Respelled`, `Quantifier.Plain`;
* `Atom.Respelled`, `Branch.Respelled`, `Branches.Respelled`: the trees differ in nothing else;
* **`groups_eq_of_respelled`**: two patterns that have been read then have the same groups.
-/

namespace PatternGraph

/-- The second quantifier is the first one, or its bounds written out. -/
inductive Quantifier.Respelled : Quantifier → Quantifier → Prop
  | same (q : Quantifier) : Respelled q q
  | optional : Respelled .optional (.counted ⟨0, some 1⟩)
  | star : Respelled .star (.counted ⟨0, none⟩)
  | plus : Respelled .plus (.counted ⟨1, none⟩)

/-- The quantifier is written without bounds. -/
def Quantifier.Plain (q : Quantifier) : Prop := ∀ b, q ≠ .counted b

theorem Quantifier.Respelled.eq_or_counted {q q' : Quantifier} (h : q.Respelled q') :
    q' = q ∨ q.Plain ∧ q' = .counted q.bounds := by
  cases h with
  | same => exact .inl rfl
  | _ => exact .inr ⟨fun b hb => (by cases hb), rfl⟩

theorem Quantifier.Respelled.skips_eq {q q' : Quantifier} (h : q.Respelled q') :
    q'.skips = q.skips := by
  cases h <;> rfl

/-! ## Trees -/

mutual

/-- The second atom is the first one with some of its quantifiers spelled as bounds. -/
inductive Atom.Respelled : Atom → Atom → Prop
  | test (t : CharTest) : Atom.Respelled (.test t) (.test t)
  | backref (k : Nat) : Atom.Respelled (.backref k) (.backref k)
  | group (k : Nat) {bs bs' : List (List Item)} :
    Branches.Respelled bs bs' → Atom.Respelled (.group k bs) (.group k bs')

/-- The second branches are the first ones with some of their quantifiers spelled as bounds. -/
inductive Branches.Respelled : List (List Item) → List (List Item) → Prop
  | nil : Branches.Respelled [] []
  | cons {b b' : List Item} {bs bs' : List (List Item)} :
    Branch.Respelled b b' → Branches.Respelled bs bs' → Branches.Respelled (b :: bs) (b' :: bs')

/-- The second branch is the first one with some of its quantifiers spelled as bounds. -/
inductive Branch.Respelled : List Item → List Item → Prop
  | nil : Branch.Respelled [] []
  | anchor (x : Anchor) {rest rest' : List Item} :
    Branch.Respelled rest rest' → Branch.Respelled (.anchor x :: rest) (.anchor x :: rest')
  | atom {a a' : Atom} {rest rest' : List Item} :
    Atom.Respelled a a' → Branch.Respelled rest rest' →
      Branch.Respelled (.atom a none :: rest) (.atom a' none :: rest')
  | quantified {a a' : Atom} {q q' : Quantifier} {rest rest' : List Item} :
    Atom.Respelled a a' → q.Respelled q' → Branch.Respelled rest rest' →
      Branch.Respelled (.atom a (some q) :: rest) (.atom a' (some q') :: rest')

end

mutual

theorem Atom.Respelled.numbers_eq : ∀ {a a' : Atom}, a.Respelled a' → a'.numbers = a.numbers
  | _, _, .test _ => rfl
  | _, _, .backref _ => rfl
  | _, _, .group k hbs => congrArg (k :: ·) hbs.numbers_eq

theorem Branches.Respelled.numbers_eq : ∀ {bs bs' : List (List Item)}, Branches.Respelled bs bs' →
    Branches.numbers bs' = Branches.numbers bs
  | _, _, .nil => rfl
  | _, _, .cons hb hbs => by
    rw [Branches.numbers, Branches.numbers, hb.numbers_eq, hbs.numbers_eq]

theorem Branch.Respelled.numbers_eq : ∀ {b b' : List Item}, Branch.Respelled b b' →
    Branch.numbers b' = Branch.numbers b
  | _, _, .nil => rfl
  | _, _, .anchor _ hrest => hrest.numbers_eq
  | _, _, .atom ha hrest => by
    rw [Branch.numbers, Branch.numbers, ha.numbers_eq, hrest.numbers_eq]
  | _, _, .quantified ha _ hrest => by
    rw [Branch.numbers, Branch.numbers, ha.numbers_eq, hrest.numbers_eq]

end

/-- **Patterns that have been read and differ in spelling have the same groups.** -/
theorem groups_eq_of_respelled {p p' : Pattern}
    (hp : Branches.numbers p.branches = List.range' 1 p.groups)
    (hp' : Branches.numbers p'.branches = List.range' 1 p'.groups)
    (h : Branches.Respelled p.branches p'.branches) : p'.groups = p.groups := by
  have hlength := congrArg List.length h.numbers_eq
  rwa [hp, hp', List.length_range', List.length_range'] at hlength

end PatternGraph
