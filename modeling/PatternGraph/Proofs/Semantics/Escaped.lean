import PatternGraph.Proofs.Pattern.Acceptance
import PatternGraph.Proofs.Semantics.Regular

/-!
# Escaped text

A text becomes a pattern for itself if a backslash is put in front of every character that could mean
something else. The reader takes it character by character, whatever stands next to one another: no
character behind one of these backslashes is a digit or the letter of a class.

* `specialCharacters`, `escaped`: a text with its backslashes;
* `literals`: one item for each character, **`Branch.denotes_literals_iff`**: it denotes the text;
* `Reading.toEnd_escaped`: reading on over escaped text, **`read_escaped`**: all of a pattern;
* **`escaped_matches_iff`**: escaped text compiles if there is room for it, and matches nothing but
  the text.
-/

namespace PatternGraph

/-- The characters that are escaped. -/
def specialCharacters : List Char :=
  ['\\', '.', '[', ']', '{', '}', '(', ')', '|', '?', '*', '+', '^', '$']

/-- The text with a backslash in front of each special character. -/
def escaped (text : List Char) : List Char :=
  text.flatMap fun c => if c ∈ specialCharacters then ['\\', c] else [c]

/-- One item for each character. -/
def literals (text : List Char) : Branch := text.map fun c => .atom (.test (.literal c)) none

section

variable {c x : Char} {w : List Char}

theorem escaped_cons_of_mem (h : c ∈ specialCharacters) (w : List Char) :
    escaped (c :: w) = '\\' :: c :: escaped w := by
  simp [escaped, h]

theorem escaped_cons_of_notMem (h : c ∉ specialCharacters) (w : List Char) :
    escaped (c :: w) = c :: escaped w := by
  simp [escaped, h]

theorem escapedTest_of_special (h : c ∈ specialCharacters) :
    c.isDigit = false ∧ Reading.escapedTest c = .literal c := by
  have hall : specialCharacters.all
      fun x => x.isDigit = false ∧ Reading.escapedTest x = .literal x := by decide
  exact of_decide_eq_true (List.all_eq_true.1 hall c h)

theorem notMem_metacharacters (h : c ∉ specialCharacters) : c ∉ metacharacters := by
  intro hc
  have hsub : ∀ x ∈ metacharacters, x ∈ specialCharacters := by
    simp [metacharacters, specialCharacters]
  exact h (hsub c hc)

end

/-! ## Reading -/

namespace Reading

variable {limits : Limits} {r s : Reading} {c : Char} {w : List Char}

/-- **One character of an escaped text is read as one literal.** -/
theorem toEnd_escaped_cons (limits : Limits) (hc : r.cursor.rest = escaped (c :: w)) : ∃ n,
    r.toEnd limits =
      (r.addAtom limits (.test (.literal c)) ⟨escaped w, n⟩).bind (toEnd limits) ∧
    r.cursor.offset + (escaped (c :: w)).length = n + (escaped w).length := by
  by_cases hs : c ∈ specialCharacters
  · obtain ⟨hdigit, htest⟩ := escapedTest_of_special hs
    rw [escaped_cons_of_mem hs] at hc
    refine ⟨r.cursor.offset + 1 + 1, ?_, ?_⟩
    · rw [toEnd_of_next limits hc, next_escape hdigit, htest]
    · rw [escaped_cons_of_mem hs, List.length_cons, List.length_cons]
      omega
  · rw [escaped_cons_of_notMem hs] at hc
    refine ⟨r.cursor.offset + 1, ?_, ?_⟩
    · rw [toEnd_of_next limits hc, next_literal (notMem_metacharacters hs)]
    · rw [escaped_cons_of_notMem hs, List.length_cons]
      omega

/-- **Reading on over escaped text** succeeds if there is room for one node for each character, and
adds one literal for each of them. -/
theorem toEnd_escaped (hr : r.nodes ≤ limits.nodes) (hc : r.cursor.rest = escaped w) :
    r.toEnd limits = .ok s ↔ r.nodes + w.length ≤ limits.nodes ∧ s = { r with
      cursor := ⟨[], r.cursor.offset + (escaped w).length⟩
      nodes := r.nodes + w.length
      scope := ⟨r.scope.branches, (literals w).reverse ++ r.scope.items⟩ } := by
  induction w generalizing r with
  | nil =>
    rw [toEnd_of_nil limits hc]
    obtain ⟨⟨rest, offset⟩, nodes, groups, scope, opened⟩ := r
    obtain rfl : rest = [] := hc
    simpa [escaped, literals, eq_comm] using fun _ => hr
  | cons c w ih =>
    obtain ⟨n, hnext, hlength⟩ := toEnd_escaped_cons limits hc
    rw [hnext, hlength, List.length_cons]
    by_cases hle : r.nodes + 1 ≤ limits.nodes
    · have hadd : r.addAtom limits (.test (.literal c)) ⟨escaped w, n⟩ = .ok { r with
          cursor := ⟨escaped w, n⟩
          nodes := r.nodes + 1
          scope := r.scope.add (.atom (.test (.literal c)) none) } := add_eq_ok.2 ⟨hle, rfl⟩
      rw [hadd]
      refine (ih hle rfl).trans ?_
      simp [literals, Scope.add, Nat.add_assoc, Nat.add_comm 1]
    · refine iff_of_false (fun h => ?_) fun h => hle ?_
      · cases hadd : r.addAtom limits (.test (.literal c)) ⟨escaped w, n⟩ with
        | error e => rw [hadd] at h; cases h
        | ok r' => exact hle (add_eq_ok.1 hadd).1
      · have hroom := h.1
        omega

end Reading

/-- **Escaped text is read as one branch of literals**, and no further than to the limit. -/
theorem read_escaped {limits : Limits} {w : List Char} {p : Pattern} :
    Pattern.read limits (escaped w) = .ok p ↔
      w.length + 2 ≤ limits.nodes ∧ p = ⟨[literals w], 0⟩ := by
  rw [Pattern.read_eq_ok]
  have hstart : (Reading.ofList (escaped w)).nodes + w.length = w.length + 2 := Nat.add_comm ..
  constructor
  · rintro ⟨htwo, r, hr, -, rfl⟩
    obtain ⟨hle, rfl⟩ := (Reading.toEnd_escaped htwo rfl).1 hr
    exact ⟨hstart ▸ hle, by simp [Reading.ofList, Scope.body, Scope.bar]⟩
  · rintro ⟨hle, rfl⟩
    have htwo : 2 ≤ limits.nodes := by omega
    refine ⟨htwo, _, (Reading.toEnd_escaped htwo rfl).2 ⟨hstart ▸ hle, rfl⟩, rfl, ?_⟩
    simp [Reading.ofList, Scope.body, Scope.bar]

/-! ## Matching -/

theorem Branch.denotes_literals_iff {s : List Char} (w : List Char) {i : Nat} (hi : i ≤ s.length) :
    Branch.Denotes s.toArray (literals w) i s.length ↔ s.drop i = w := by
  induction w generalizing i with
  | nil =>
    rw [literals, List.map_nil, Branch.Denotes, List.drop_eq_nil_iff]
    omega
  | cons c w ih =>
    have hcons : Branch.Denotes s.toArray (literals (c :: w)) i s.length ↔
        s[i]? = some c ∧ Branch.Denotes s.toArray (literals w) (i + 1) s.length := by
      simp only [literals, List.map_cons, Branch.Denotes, Atom.Denotes, and_assoc]
      simp [CharTest.accepts, Option.any_eq_true]
    rcases Nat.lt_or_ge i s.length with hlt | hge
    · rw [hcons, ih hlt, List.drop_eq_getElem_cons hlt, List.cons.injEq,
        List.getElem?_eq_getElem hlt, Option.some.injEq]
    · rw [hcons, List.getElem?_eq_none hge, List.drop_eq_nil_of_le hge]
      simp

theorem every_literals (w : List Char) : Branches.Every Item.Regular [literals w] ∧
    Branches.Every Item.CountsRead [literals w] := by
  constructor <;>
  · refine ⟨Branch.every_iff.2 fun item hitem => ?_, trivial⟩
    obtain ⟨c, -, rfl⟩ := List.mem_map.1 hitem
    exact ⟨trivial, trivial, trivial⟩

theorem search_literals_iff {limits : Limits} {text w : List Char}
    (hp : Pattern.read limits text = .ok ⟨[literals w], 0⟩) (s : List Char) :
    (search (Graph.ofPattern ⟨[literals w], 0⟩) s.toArray).1 = true ↔ s = w := by
  have hg := Graph.fits_ofPattern (fits_of_read hp)
  obtain ⟨hregular, hcounts⟩ := every_literals w
  have hdenotes : Branches.Denotes s.toArray [literals w] 0 s.length ↔ s = w := by
    rw [Branches.Denotes, Branches.Denotes, or_false,
      Branch.denotes_literals_iff w (Nat.zero_le _), List.drop_zero]
  rw [search_iff_exists_path_of_regular hg hregular hcounts, exists_path_iff_denotes hg hregular,
    List.size_toArray, hdenotes]

/-- **Escaped text is matched literally and nothing else is.** It compiles if and only if the limit
leaves room for one node for each character besides the two ends, it has no groups, and it matches a
subject if and only if that is the text. -/
theorem escaped_matches_iff (limits : Limits) (w : String) :
    ((∃ r, RegexBuilder.build ⟨String.ofList (escaped w.toList), limits⟩ = .ok r) ↔
      w.length + 2 ≤ limits.nodes) ∧
    ∀ r, RegexBuilder.build ⟨String.ofList (escaped w.toList), limits⟩ = .ok r →
      r.groups = 0 ∧ ∀ s : String, r.isMatch s = true ↔ s = w := by
  have hread : ∀ {p}, Pattern.read limits (String.ofList (escaped w.toList)).toList = .ok p ↔
      w.length + 2 ≤ limits.nodes ∧ p = ⟨[literals w.toList], 0⟩ := by
    intro p
    rw [String.toList_ofList, read_escaped, String.length_toList]
  refine ⟨⟨fun ⟨r, hr⟩ => ?_, fun hle => ?_⟩, fun r hr => ?_⟩
  · obtain ⟨p, hp, -⟩ := exists_read_of_build hr
    exact (hread.1 hp).1
  · have hp := hread.2 ⟨hle, rfl⟩
    exact ⟨_, by rw [RegexBuilder.build, compile, hp]⟩
  · obtain ⟨p, hp, rfl⟩ := exists_read_of_build hr
    obtain ⟨-, rfl⟩ := hread.1 hp
    refine ⟨rfl, fun s => ?_⟩
    exact (search_literals_iff hp s.toList).trans String.toList_inj

/-- A backslash, a digit, a hyphen and a brace: neither does the escaped backslash take the digit for
a group, nor is there room for the four in less than six nodes. -/
theorem escaped_matches_iff_backslash : ∃ r,
    RegexBuilder.build ⟨"\\\\1-\\\x7d", { nodes := 6 }⟩ = .ok r ∧
      r.isMatch "\\1-\x7d" = true ∧ r.isMatch "1-\x7d" = false ∧
      ¬ ∃ r, RegexBuilder.build ⟨"\\\\1-\\\x7d", { nodes := 5 }⟩ = .ok r := by
  have htext : String.ofList (escaped "\\1-\x7d".toList) = "\\\\1-\\\x7d" := by decide +kernel
  obtain ⟨hbuild, hmatch⟩ := escaped_matches_iff { nodes := 6 } "\\1-\x7d"
  obtain ⟨hbuild', -⟩ := escaped_matches_iff { nodes := 5 } "\\1-\x7d"
  rw [htext] at hbuild hmatch hbuild'
  obtain ⟨r, hr⟩ := hbuild.2 (by decide)
  refine ⟨r, hr, ((hmatch r hr).2 _).2 rfl, ?_, fun h => absurd (hbuild'.1 h) (by decide)⟩
  rw [Bool.eq_false_iff, Ne, (hmatch r hr).2]
  decide

end PatternGraph
