import PatternGraph.CharClass

/-!
# Patterns

A pattern is a choice between branches, a branch a row of items. An item is an anchor, or an atom
with at most one quantifier; an atom is a test on one character, a back reference to the text of a
group, or a group, which holds branches again.

* `Bounds`, `Quantifier`, `Anchor`;
* `Atom`, `Item`: the tree, `Branch` and `Branches` its rows;
* `Pattern`: the branches of a whole pattern and the number of its groups.
-/

namespace PatternGraph

/-- How often a counted repetition passes over its body: at least `min` times, and at most `max`
times if there is an upper bound. -/
structure Bounds where
  min : Nat
  max : Option Nat
deriving DecidableEq

namespace Bounds

/-- After `count` passes there is room for one more. -/
def mayLoop (b : Bounds) (count : Nat) : Bool := b.max.all (count < ·)

/-- With `count` passes the upper bound has been left behind. -/
def exceeded (b : Bounds) (count : Nat) : Bool := b.max.any (· < count)

/-- With `count` passes the lower bound has been reached. -/
def satisfied (b : Bounds) (count : Nat) : Bool := b.min ≤ count

end Bounds

/-- What stands behind an atom and says how often it may occur. -/
inductive Quantifier where
  | optional
  | star
  | plus
  | counted (bounds : Bounds)
deriving DecidableEq

/-- A quantified atom that may be passed over without being entered. -/
def Quantifier.skips : Quantifier → Bool
  | .optional | .star => true
  | .plus => false
  | .counted bounds => bounds.min == 0

/-- The number of nodes that a quantifier adds to those of its atom. -/
def Quantifier.nodes : Quantifier → Nat
  | .counted _ => 2
  | _ => 1

/-- The ends of the subject. -/
inductive Anchor where
  | atStart
  | atEnd
deriving DecidableEq

mutual

/-- A construct that a quantifier may follow. Groups bear the number of their opening parenthesis,
counted from 1. -/
inductive Atom where
  | test (t : CharTest)
  | backref (group : Nat)
  | group (number : Nat) (branches : List (List Item))

/-- One item of a branch. -/
inductive Item where
  | anchor (a : Anchor)
  | atom (a : Atom) (quantifier : Option Quantifier)

end

/-- Items that are matched one after the other. -/
abbrev Branch := List Item

/-- Branches that are tried from left to right. -/
abbrev Branches := List Branch

/-- A whole pattern. -/
structure Pattern where
  branches : Branches
  groups : Nat

end PatternGraph
