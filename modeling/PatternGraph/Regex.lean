import PatternGraph.Pattern.Reading
import PatternGraph.Graph.Layout
import PatternGraph.Matcher
import PatternGraph.Captures

/-!
# Regular expressions

* `compile`: the graph of a pattern, or the first error in it;
* `Regex`: a pattern with its graph, `RegexBuilder`: a pattern with the limits for it;
* `Regex.isMatch`, `Regex.captures?`: one match, by a matcher of its own.
-/

namespace PatternGraph

/-- Reads a pattern and lays out its graph. -/
def compile (limits : Limits) (pattern : String) : Except PatternError Graph :=
  match Pattern.read limits pattern.toList with
  | .error fault => .error ⟨fault, pattern⟩
  | .ok p => .ok (Graph.ofPattern p)

/-- A pattern that has been compiled. -/
structure Regex where
  pattern : String
  graph : Graph

/-- A pattern that is still to be compiled, and the limits for it. -/
structure RegexBuilder where
  pattern : String
  limits : Limits := {}

/-- Compiles the pattern under the limits. -/
def RegexBuilder.build (b : RegexBuilder) : Except PatternError Regex :=
  match compile b.limits b.pattern with
  | .error e => .error e
  | .ok graph => .ok ⟨b.pattern, graph⟩

namespace Regex

/-- Compiles a pattern under the usual limits. -/
def ofPattern (pattern : String) : Except PatternError Regex :=
  RegexBuilder.build { pattern }

/-- A matcher for the graph. -/
def matcher (r : Regex) : Matcher := .ofGraph r.graph

/-- The whole subject matches. -/
def isMatch (r : Regex) (subject : String) : Bool := (r.matcher.run subject).1

/-- The captures of a match of the whole subject, if there is one. -/
def captures? (r : Regex) (subject : String) : Option Captures :=
  match r.matcher.run subject with
  | (true, m) => some (.ofSpans subject m.spans)
  | (false, _) => none

/-- The number of groups that the pattern opens. -/
def groups (r : Regex) : Nat := r.graph.groups

/-- The pattern, quoted. -/
def describe (r : Regex) : String := "Regex(" ++ quoted r.pattern ++ ")"

end Regex

end PatternGraph
