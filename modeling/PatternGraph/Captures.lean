import PatternGraph.Span

/-!
# The captures of a match

Spans count characters. The text of a group is cut out of the subject by bytes, for which a table
gives the byte at which each character begins.

* `boundaries`: the table;
* `Captures`: a subject with the spans of a match;
* `Captures.span?`, `Captures.byteRange?`, `Captures.text?`: a group, as spans, bytes and text;
* `Captures.text`: the text of a group that has to be there.
-/

namespace PatternGraph

/-- The bytes at which the characters of a text begin, and behind them the byte where it ends. -/
def boundaries (text : List Char) : Array Nat :=
  (text.foldl (fun (found, byte) c => (found.push byte, byte + c.utf8Size))
    ((#[] : Array Nat), 0)) |> fun (found, byte) => found.push byte

/-- A group has no text that could be given. -/
structure NoGroup where
  index : Nat
deriving DecidableEq

/-- The text for a group without text. -/
def NoGroup.message (e : NoGroup) : String := s!"no group at index '{e.index}'"

/-- The groups of one match, that of the whole subject first. Groups that took no part have no
span. -/
structure Captures where
  subject : String
  spans : Array (Option Span)
  boundaries : Array Nat

namespace Captures

/-- The captures with these spans. -/
def ofSpans (subject : String) (spans : List (Option Span)) : Captures :=
  ⟨subject, spans.toArray, PatternGraph.boundaries subject.toList⟩

/-- The number of groups, the whole match included. -/
def size (k : Captures) : Nat := k.spans.size

/-- The characters that a group covers. -/
def span? (k : Captures) (i : Nat) : Option Span := k.spans[i]?.join

/-- The bytes that a group covers. -/
def byteRange? (k : Captures) (i : Nat) : Option (Nat × Nat) := do
  let (start, stop) ← (← k.span? i).range?
  return (← k.boundaries[start]?, ← k.boundaries[stop]?)

/-- The text that a group covers, cut out of the bytes of the subject. -/
def text? (k : Captures) (i : Nat) : Option String := do
  let (start, stop) ← k.byteRange? i
  String.fromUTF8? (k.subject.toUTF8.extract start stop)

/-- The texts of all groups. -/
def texts (k : Captures) : List (Option String) := (List.range k.size).map k.text?

/-- The text that a group covers, or the complaint that there is none. -/
def text (k : Captures) (i : Nat) : Except NoGroup String :=
  match k.text? i with
  | some text => .ok text
  | none => .error ⟨i⟩

end Captures

end PatternGraph
