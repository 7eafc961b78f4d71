import PatternGraph.Proofs.Pattern.Fits

/-!
# Parts that may match nothing

* `Atom.nullable`, `Branch.nullable`, `Branches.nullable`: by its shape alone the part does not have
  to read a character. Anchors and back references do not, tests do;
* `Quantifier.bounds`: how often a quantified atom may occur;
* `Item.LoopsRead`, `Item.CountsRead`: what is repeated reads something on every pass.
-/

namespace PatternGraph

mutual

/-- The atom does not have to read a character. -/
def Atom.nullable : Atom → Bool
  | .test _ => false
  | .backref _ => true
  | .group _ branches => Branches.nullable branches

/-- One of the branches does not have to read a character. -/
def Branches.nullable : List (List Item) → Bool
  | [] => false
  | b :: bs => Branch.nullable b || Branches.nullable bs

/-- No item of the branch has to read a character. -/
def Branch.nullable : List Item → Bool
  | [] => true
  | .anchor _ :: rest => Branch.nullable rest
  | .atom a none :: rest => a.nullable && Branch.nullable rest
  | .atom a (some q) :: rest => (q.skips || a.nullable) && Branch.nullable rest

end

/-- How often the quantified atom may occur. -/
def Quantifier.bounds : Quantifier → Bounds
  | .optional => ⟨0, some 1⟩
  | .star => ⟨0, none⟩
  | .plus => ⟨1, none⟩
  | .counted bounds => bounds

theorem Quantifier.skips_eq_satisfied (q : Quantifier) : q.skips = q.bounds.satisfied 0 := by
  cases q with
  | counted b =>
    rw [Bool.eq_iff_iff]
    simp [Quantifier.skips, Quantifier.bounds, Bounds.satisfied]
  | _ => rfl

/-- The body of `*`, `+` or of a counted repetition reads something on every pass. -/
def Item.LoopsRead : Item → Prop
  | .atom a (some q) => q ≠ .optional → a.nullable = false
  | _ => True

/-- The body of a counted repetition reads something on every pass. -/
def Item.CountsRead : Item → Prop
  | .atom a (some (.counted _)) => a.nullable = false
  | _ => True

end PatternGraph
