import PatternGraph.Text.Quoted

/-!
# Tests on one character

* `CharRange`: an inclusive range, `CharClass`: ranges that are listed or, negated, left out;
* `CharClass.digits`, `CharClass.blanks`: the two classes that have a short name;
* `CharTest`: what a pattern can ask of a character, `CharTest.accepts` the answer;
* `CharClass.display`: the class as it is listed in a graph.
-/

namespace PatternGraph

/-- The characters from `first` to `last`, both included. -/
structure CharRange where
  first : Char
  last : Char
deriving DecidableEq

namespace CharRange

/-- The range of one character. -/
def single (c : Char) : CharRange := ⟨c, c⟩

/-- The character lies in the range. -/
def contains (r : CharRange) (c : Char) : Bool := r.first ≤ c && c ≤ r.last

/-- A single character stands for itself; other ranges show both ends. -/
def display (r : CharRange) : String :=
  if r.first = r.last then escapeAlone r.first
  else escapeAlone r.first ++ "-" ++ escapeAlone r.last

end CharRange

/-- A choice of characters: those in one of the ranges or, if negated, all others. -/
structure CharClass where
  negated : Bool
  ranges : List CharRange
deriving DecidableEq

namespace CharClass

/-- The decimal digits, or everything else. -/
def digits (negated : Bool) : CharClass := ⟨negated, [⟨'0', '9'⟩]⟩

/-- Carriage return, line feed, tab, form feed and space, or everything else. -/
def blanks (negated : Bool) : CharClass :=
  ⟨negated, ['\r', '\n', '\t', '\x0c', ' '].map CharRange.single⟩

/-- The character belongs to the class. -/
def accepts (k : CharClass) (c : Char) : Bool := (k.ranges.any (·.contains c)) != k.negated

/-- The ranges between brackets, after a caret if the class is negated. -/
def display (k : CharClass) : String :=
  (if k.negated then "[^" else "[") ++ String.join (k.ranges.map CharRange.display) ++ "]"

end CharClass

/-- What a pattern asks of one character. -/
inductive CharTest where
  | literal (c : Char)
  | any
  | oneOf (k : CharClass)
deriving DecidableEq

/-- The character passes the test. -/
def CharTest.accepts : CharTest → Char → Bool
  | .literal d, c => c == d
  | .any, _ => true
  | .oneOf k, c => k.accepts c

end PatternGraph
