import PatternGraph.Text.Hidden

/-!
# Quoted text

Text is shown between double quotes, a single character between single ones. Inside, the quote,
the backslash, a few controls and every hidden character are written as escapes.

* `named?`: the controls and signs that have a short escape;
* `escape`: one character inside double quotes, `escapeAlone`: one character on its own;
* `quoted`: a whole text.
-/

namespace PatternGraph

/-- The letter or sign that stands after the backslash in a short escape. -/
def named? : Char → Option Char
  | '\x00' => some '0'
  | '\t' => some 't'
  | '\r' => some 'r'
  | '\n' => some 'n'
  | '\\' => some '\\'
  | '"' => some '"'
  | _ => none

/-- A character as it is written inside double quotes: by its short escape, by its code point in
hexadecimal if it is hidden, and otherwise as itself. -/
def escape (c : Char) : String :=
  match named? c with
  | some letter => String.ofList ['\\', letter]
  | none =>
    if isHidden c then
      "\\u\x7b" ++ String.ofList (Nat.toDigits 16 c.toNat) ++ "\x7d"
    else
      String.singleton c

/-- A character as it is written on its own, where the single quote needs an escape as well. -/
def escapeAlone (c : Char) : String :=
  if c = '\'' then "\\'" else escape c

example : escape '\n' = "\\n" := by decide

example : escapeAlone '"' = "\\\"" := by decide

/-- The text between double quotes. -/
def quoted (text : String) : String :=
  text.toList.foldl (fun out c => out ++ escape c) "\"" ++ "\""

end PatternGraph
