import PatternGraph.Regex
import PatternGraph.Graph.Display

/-!
# The command line

The first argument is a pattern, the others are subjects. The graph of the pattern is shown, then
for each subject whether it matches and what its groups cover. Without arguments the graphs of a
few patterns are shown.

* `Report`: what a run prints and the code it ends with;
* `Report.ofArguments`.
-/

namespace PatternGraph

/-- What is printed, on both streams, and the exit code. -/
structure Report where
  exit : Nat := 0
  output : String := ""
  errors : String := ""

namespace Report

/-- How the program is called. -/
def usage : String := "usage: regexpy-graph <pattern> [subject]...\n"

/-- The line above what is shown for a pattern. -/
def heading (pattern : String) : String := "\n=== Pattern: '" ++ pattern ++ "' ===\n"

/-- The patterns that are shown without arguments. The last one is wrong. -/
def samples : List String :=
  ["ab", "a*", "a+", "a?", "a|b", "[^a-c]", "[--]", "a\x7b2,3\x7d", "(a|b)\\1", "(b$|c)a*", "()*",
    "(a\x7b2\x7db)\x7b2,\x7d", "a\x7b3,2\x7d"]

/-- A pattern under its heading: the graph, or the error. -/
def sample (pattern : String) : String :=
  heading pattern ++
    match compile {} pattern with
    | .ok graph => graph.display
    | .error e => e.message ++ "\n"

/-- The graphs of the samples. -/
def demo : Report where
  output := "Backtracking Node Graph - Structure Demo\n" ++
    "========================================\n" ++ String.join (samples.map sample)

/-- The line for one group of a match. -/
def groupLine (subject : List Char) (m : Matcher) (group : Nat) : String :=
  match (m.group? group).bind Span.range? with
  | some (start, stop) =>
    let text := String.ofList ((subject.drop start).take (stop - start))
    s!"  group {group}: {start}..{stop} {quoted text}\n"
  | none => s!"  group {group}: unset\n"

/-- The lines for one subject, once the matcher has run on it. -/
def subjectLines (subject : String) (matched : Bool) (m : Matcher) : String :=
  if matched then
    "\n" ++ quoted subject ++ ": match\n" ++
      String.join ((List.range (m.graph.groups + 1)).map (groupLine subject.toList m))
  else "\n" ++ quoted subject ++ ": no match\n"

/-- Runs a matcher on one more subject. A subject that does not match sets the exit code. -/
def addSubject (soFar : Report × Matcher) (subject : String) : Report × Matcher :=
  let (r, m) := soFar
  let (matched, m) := m.run subject
  ({ r with
    exit := if matched then r.exit else 1
    output := r.output ++ subjectLines subject matched m }, m)

/-- The graph of a pattern and the matches of the subjects. -/
def ofSubjects (pattern : String) (subjects : List String) : Report :=
  match compile {} pattern with
  | .error e => { exit := 2, errors := e.message ++ "\n" }
  | .ok graph =>
    (subjects.foldl addSubject
      ({ output := heading pattern ++ graph.display }, Matcher.ofGraph graph)).1

/-- What the program prints for the given arguments. -/
def ofArguments : List String → Report
  | [] => demo
  | pattern :: subjects =>
    if pattern = "-h" ∨ pattern = "--help" then { output := usage }
    else ofSubjects pattern subjects

end Report

end PatternGraph
