import PatternGraph.Search.Run

/-!
# Matchers

A matcher runs one graph on one subject after the other and keeps what the last run captured.

* `Matcher`, `Matcher.ofGraph`;
* `Matcher.run`: the whole subject has to match;
* `Matcher.group?`, `Matcher.spans`: the spans of the last run.
-/

namespace PatternGraph

/-- A graph, and the state in which the last search along it ended. -/
structure Matcher where
  graph : Graph
  state : State

namespace Matcher

/-- A matcher that has not run yet. -/
def ofGraph (g : Graph) : Matcher := ⟨g, .initial g.size g.groups⟩

/-- Matches the whole subject. Nothing of the last run is left in the matcher that comes back. -/
def run (m : Matcher) (subject : String) : Bool × Matcher :=
  let (matched, state) := search m.graph subject.toList.toArray
  (matched, { m with state })

/-- The span of a group in the last run. There is none if that run failed, if the group took no
part in it, or if there is no such group. -/
def group? (m : Matcher) (group : Nat) : Option Span := m.state.group? group

/-- The spans of all groups, that of the whole match first. -/
def spans (m : Matcher) : List (Option Span) := (List.range (m.graph.groups + 1)).map m.group?

end Matcher

end PatternGraph
