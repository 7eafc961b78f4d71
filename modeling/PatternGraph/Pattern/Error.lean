import PatternGraph.Text.Quoted

/-!
# What can be wrong with a pattern

* `Cause`: the kinds of error, with their wording in `Cause.message`;
* `Fault`: a cause and the place in the pattern where it was noticed;
* `PatternError`: a fault together with the pattern, `PatternError.message` the full text.
-/

namespace PatternGraph

/-- Why a pattern is refused. -/
inductive Cause where
  /-- The pattern ends inside a construct. -/
  | unexpectedEnd
  /-- There is no number where one has to stand, or one that is too large. -/
  | numberExpected
  /-- A closing parenthesis without an opening one. -/
  | unopenedGroup
  /-- An opening parenthesis without a closing one. -/
  | unclosedGroup
  /-- A bracket that is not closed. -/
  | unclosedClass
  /-- A quantifier with nothing before it. -/
  | missingOperand
  /-- A quantifier right behind a quantifier. -/
  | stackedQuantifier
  /-- Bounds that are not closed by a brace. -/
  | unclosedBounds
  /-- Bounds whose minimum is above their maximum. -/
  | boundsInverted (min max : Nat)
  /-- A range in brackets whose first character is above its last one. -/
  | rangeInverted (first last : Char)
  /-- A hyphen in brackets that is neither a character nor part of a range. -/
  | strayHyphen
  /-- A back reference to a group that has not been opened yet. -/
  | undefinedBackref (group : Nat)
  /-- Groups nested more than `limit` deep. -/
  | nestingLimit (limit : Nat)
  /-- More than `limit` nodes. -/
  | nodeLimit (limit : Nat)
deriving DecidableEq

/-- The wording of a cause. -/
def Cause.message : Cause → String
  | .unexpectedEnd => "unexpected end of pattern"
  | .numberExpected => "unexpected input where number expected"
  | .unopenedGroup => "unopened group"
  | .unclosedGroup => "unclosed group"
  | .unclosedClass => "unclosed character class"
  | .missingOperand => "quantifier without operand"
  | .stackedQuantifier => "quantifier applied to a quantifier"
  | .unclosedBounds => "unclosed counted repetition"
  | .boundsInverted min max =>
    s!"invalid repetition range \x7b{min},{max}\x7d: minimum exceeds maximum"
  | .rangeInverted first last => s!"invalid class range {first}-{last}: start exceeds end"
  | .strayHyphen => "hyphen in class must be a range or a literal"
  | .undefinedBackref group => s!"recall before definition of group {group}"
  | .nestingLimit limit => s!"groups nested deeper than the limit of {limit}"
  | .nodeLimit limit => s!"compiled graph exceeds the limit of {limit} nodes"

/-- A cause and the offset, in characters, that it is reported at. -/
structure Fault where
  cause : Cause
  offset : Nat
deriving DecidableEq

/-- The first fault of a pattern. -/
structure PatternError extends Fault where
  pattern : String
deriving DecidableEq

/-- The place, the pattern in quotes and the cause. -/
def PatternError.message (e : PatternError) : String :=
  s!"regex syntax error at offset {e.offset} in {quoted e.pattern}: {e.cause.message}"

end PatternGraph
