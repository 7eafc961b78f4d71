import PatternGraph.CommandLine
import PatternGraph.Proofs.Search.CaptureTable

/-!
# The text of a group

A search counts in characters. The captures cut the text of a group out of the bytes of the subject,
with a table of the bytes at which characters begin. What is printed for a subject is cut out of its
characters, without the table. Both are the same text, since every span that a search leaves lies
within the subject.

* `bytesBefore`: how many bytes the first characters of a text take, **`boundaries_eq`**: they are
  the entries of the table;
* **`extract_bytesBefore`**: bytes that are cut out at such places are those of the characters in
  between;
* `Captures.Unset`, `Captures.Covers`: the two things that captures can tell of a group,
  **`Captures.unset_or_covers`**: one of them is told, if the spans lie within the subject;
* `span?_of_run`: those that a run leaves do;
* `Captures.line`: what captures tell of a group as a line, `Captures.line_eq`: it is the line that
  is printed;
* **`captured_texts_agree`**: spans, bytes and texts of a match.
-/

namespace PatternGraph

/-! ## Characters and their bytes -/

/-- How many bytes the first `i` characters of a text take. -/
def bytesBefore (text : List Char) (i : Nat) : Nat := (String.ofList (text.take i)).utf8ByteSize

theorem bytesBefore_cons (c : Char) (text : List Char) (i : Nat) :
    bytesBefore (c :: text) (i + 1) = c.utf8Size + bytesBefore text i := by
  have hsplit : String.ofList (c :: text.take i) =
      String.singleton c ++ String.ofList (text.take i) := by
    rw [String.singleton_eq_ofList, ← String.ofList_append, List.singleton_append]
  rw [bytesBefore, List.take_succ_cons, hsplit, String.utf8ByteSize_append,
    String.utf8ByteSize_singleton]
  rfl

theorem bytesBefore_add (text : List Char) (b n : Nat) : bytesBefore text (b + n) =
    bytesBefore text b + (String.ofList ((text.drop b).take n)).utf8ByteSize := by
  rw [bytesBefore, List.take_add, String.ofList_append, String.utf8ByteSize_append]
  rfl

theorem bytesBefore_mono (text : List Char) {b e : Nat} (h : b ≤ e) :
    bytesBefore text b ≤ bytesBefore text e := by
  obtain ⟨n, rfl⟩ := Nat.exists_eq_add_of_le h
  rw [bytesBefore_add]
  exact Nat.le_add_right ..

theorem isValid_bytesBefore (text : List Char) (i : Nat) :
    (⟨bytesBefore text i⟩ : String.Pos.Raw).IsValid (String.ofList text) := by
  rw [String.Pos.Raw.isValid_iff_exists_take_toList, String.toList_ofList]
  exact ⟨i, rfl⟩

/-- The table as it grows: a character adds the byte at which it begins. -/
theorem foldl_boundaries (text : List Char) (found : Array Nat) (byte : Nat) :
    text.foldl (fun (found, byte) c => (found.push byte, byte + c.utf8Size)) (found, byte) =
      (found ++ ((List.range text.length).map (byte + bytesBefore text ·)).toArray,
        byte + bytesBefore text text.length) := by
  induction text generalizing found byte with
  | nil => simp [bytesBefore]
  | cons c text ih =>
    have hzero : bytesBefore (c :: text) 0 = 0 := rfl
    rw [List.foldl_cons, ih, List.length_cons, List.range_succ_eq_map]
    simp [bytesBefore_cons, hzero, Nat.add_assoc, Function.comp_def]

/-- **The table has the bytes in front of each character**, and those of the whole text. -/
theorem boundaries_eq (text : List Char) :
    boundaries text = ((List.range (text.length + 1)).map (bytesBefore text)).toArray := by
  rw [boundaries, foldl_boundaries]
  simp [List.range_succ]

theorem getElem?_boundaries {text : List Char} {i : Nat} (h : i ≤ text.length) :
    (boundaries text)[i]? = some (bytesBefore text i) := by
  simp [boundaries_eq, Nat.lt_succ_of_le h]

/-- **Between two such bytes are the bytes of the characters in between.** -/
theorem extract_bytesBefore (text : List Char) (b n : Nat) :
    (String.ofList text).toUTF8.extract (bytesBefore text b) (bytesBefore text (b + n)) =
      (String.ofList ((text.drop b).take n)).toUTF8 := by
  let front := String.ofList (text.take b)
  let part := String.ofList ((text.drop b).take n)
  let rest := String.ofList ((text.drop b).drop n)
  have hsplit : String.ofList text = front ++ (part ++ rest) := by
    rw [← String.ofList_append, List.take_append_drop, ← String.ofList_append,
      List.take_append_drop]
  have hcut : (front.toByteArray ++ (part.toByteArray ++ rest.toByteArray)).extract
      (front.toByteArray.size + 0) (front.toByteArray.size + part.toByteArray.size) =
        part.toByteArray := by
    rw [ByteArray.extract_append_size_add, ByteArray.extract_append_eq_left rfl]
  rwa [← String.toByteArray_append, ← String.toByteArray_append, ← hsplit, Nat.add_zero,
    String.size_toByteArray, String.size_toByteArray, ← bytesBefore, ← bytesBefore_add] at hcut

theorem fromUTF8?_toUTF8 (s : String) : String.fromUTF8? s.toUTF8 = some s := by
  rw [String.toUTF8_eq_toByteArray, String.fromUTF8?, dif_pos s.isValidUTF8]
  rfl

/-! ## What captures tell -/

namespace Captures

/-- The characters of the subject from `b` to `e`. -/
def between (k : Captures) (b e : Nat) : String :=
  String.ofList ((k.subject.toList.drop b).take (e - b))

/-- Nothing is told of group `i`, and asking for its text is an error. -/
structure Unset (k : Captures) (i : Nat) : Prop where
  span : k.span? i = none
  bytes : k.byteRange? i = none
  text : k.text? i = none
  index : k.text i = .error ⟨i⟩

/-- All that is told of group `i` is that it covers the characters from `b` to `e`. -/
structure Covers (k : Captures) (i b e : Nat) : Prop where
  inside : b ≤ e ∧ e ≤ k.subject.length
  span : k.span? i = some ⟨some b, some e⟩
  bytes : k.byteRange? i =
    some (bytesBefore k.subject.toList b, bytesBefore k.subject.toList e)
  ordered : bytesBefore k.subject.toList b ≤ bytesBefore k.subject.toList e
  cut : (⟨bytesBefore k.subject.toList b⟩ : String.Pos.Raw).IsValid k.subject ∧
    (⟨bytesBefore k.subject.toList e⟩ : String.Pos.Raw).IsValid k.subject
  text : k.text? i = some (k.between b e)
  index : k.text i = .ok (k.between b e)

/-- What is told of group `i`, as a line. -/
def line (k : Captures) (i : Nat) : String :=
  match k.span? i, k.text? i with
  | some ⟨some b, some e⟩, some text => s!"  group {i}: {b}..{e} {quoted text}\n"
  | _, _ => s!"  group {i}: unset\n"

section

variable {k : Captures} {subject : String} {spans : List (Option Span)} {i b e : Nat}

theorem unset_of_span? (h : k.span? i = none) : k.Unset i := by
  have hbytes : k.byteRange? i = none := by simp [byteRange?, h]
  have htext : k.text? i = none := by simp [text?, hbytes]
  exact ⟨h, hbytes, htext, by simp [text, htext]⟩

theorem covers_of_span? (hbe : b ≤ e) (he : e ≤ subject.length)
    (h : (ofSpans subject spans).span? i = some ⟨some b, some e⟩) :
    (ofSpans subject spans).Covers i b e := by
  have he' : e ≤ subject.toList.length := by rwa [String.length_toList]
  have hbytes : (ofSpans subject spans).byteRange? i =
      some (bytesBefore subject.toList b, bytesBefore subject.toList e) := by
    simp only [byteRange?, h]
    simp [Span.range?, ofSpans, getElem?_boundaries he', getElem?_boundaries (hbe.trans he')]
  have htext : (ofSpans subject spans).text? i = some ((ofSpans subject spans).between b e) := by
    have hcut := extract_bytesBefore subject.toList b (e - b)
    rw [String.ofList_toList, Nat.add_sub_cancel' hbe] at hcut
    rw [text?, hbytes, Option.bind_eq_bind, Option.bind_some]
    exact (congrArg String.fromUTF8? hcut).trans (fromUTF8?_toUTF8 _)
  have hvalid := isValid_bytesBefore subject.toList
  rw [String.ofList_toList] at hvalid
  exact ⟨⟨hbe, he⟩, h, hbytes, bytesBefore_mono _ hbe, ⟨hvalid b, hvalid e⟩, htext,
    by simp [text, htext]⟩

/-- **Of a group either nothing is told or the same in all ways**, if its span lies within the
subject. -/
theorem unset_or_covers
    (h : ∀ s, (ofSpans subject spans).span? i = some s → s.ClosedBy subject.length) :
    (ofSpans subject spans).Unset i ∨ ∃ b e, (ofSpans subject spans).Covers i b e := by
  cases hspan : (ofSpans subject spans).span? i with
  | none => exact .inl (unset_of_span? hspan)
  | some s =>
    obtain ⟨b, e, rfl, hbe, he⟩ := h s hspan
    exact .inr ⟨b, e, covers_of_span? hbe he hspan⟩

end

end Captures

/-! ## Runs -/

section

variable {limits : Limits} {pattern subject : String} {r : Regex} {m : Matcher} {i : Nat}

theorem Captures.span?_spans (subject : String) (m : Matcher) (i : Nat) :
    (Captures.ofSpans subject m.spans).span? i =
      if i ≤ m.graph.groups then m.group? i else none := by
  rw [span?, ofSpans, List.getElem?_toArray, Matcher.spans, List.getElem?_map]
  by_cases hi : i ≤ m.graph.groups
  · simp [hi, Nat.lt_succ_of_le hi]
  · rw [if_neg hi, List.getElem?_eq_none (by rw [List.length_range]; omega)]
    rfl

theorem Captures.size_spans (subject : String) (m : Matcher) :
    (Captures.ofSpans subject m.spans).size = m.graph.groups + 1 := by
  rw [size, ofSpans, List.size_toArray, Matcher.spans, List.length_map, List.length_range]

/-- **The spans that a run leaves lie within the subject**, and that of the whole match is the
whole subject. -/
theorem span?_of_run (hr : RegexBuilder.build ⟨pattern, limits⟩ = .ok r)
    (hm : r.matcher.run subject = (true, m)) :
    (Captures.ofSpans subject m.spans).span? 0 = some ⟨some 0, some subject.length⟩ ∧
      ∀ i s, (Captures.ofSpans subject m.spans).span? i = some s → s.ClosedBy subject.length := by
  obtain ⟨p, hp, rfl⟩ := exists_read_of_build hr
  have hw := wellFormed_of_read hp
  have hg := Graph.fits_ofPattern (fits_of_read hp)
  have hnumbers := numbers_of_read hp
  obtain ⟨hsearch, hgraph⟩ : search (Graph.ofPattern p) subject.toList.toArray = (true, m.state) ∧
      m.graph = Graph.ofPattern p := by
    simp only [Regex.matcher, Matcher.run, Matcher.ofGraph, Prod.mk.injEq] at hm
    exact ⟨Prod.ext hm.1 (congrArg Matcher.state hm.2), (congrArg Matcher.graph hm.2).symm⟩
  have hlength : subject.length = subject.toList.toArray.size := by
    rw [List.size_toArray, String.length_toList]
  rw [hlength]
  obtain ⟨passed, mem, hpasses, hmirrors, -⟩ := exists_passes_of_search hw hg hsearch
  have hpasses' : Passes (Graph.ofPattern p) subject.toList.toArray passed
    ⟨1, subject.toList.toArray.size⟩ mem := hpasses
  refine ⟨?_, fun i s hs => ?_⟩
  · rw [Captures.span?_spans, if_pos (Nat.zero_le _), Matcher.group?, State.group?, State.latest?,
      hmirrors.captures 0 (Nat.zero_le _), hpasses'.captures_zero hw hnumbers]
    rfl
  · rw [Captures.span?_spans, hgraph] at hs
    split at hs
    · next hi =>
      rw [Matcher.group?, State.group?, State.latest?, hmirrors.captures i hi] at hs
      exact (hpasses'.settled hw hg hnumbers i).closed s
        (List.mem_of_head? (Option.eq_some_of_filter_eq_some hs))
    · cases hs

theorem Matcher.run_of_graph_eq {m' : Matcher} (h : m.graph = m'.graph) (subject : String) :
    m.run subject = m'.run subject := by
  obtain ⟨g, st⟩ := m
  obtain rfl : g = m'.graph := h
  rfl

theorem Captures.line_eq (hi : i ≤ m.graph.groups)
    (h : (Captures.ofSpans subject m.spans).Unset i ∨
      ∃ b e, (Captures.ofSpans subject m.spans).Covers i b e) :
    (Captures.ofSpans subject m.spans).line i = Report.groupLine subject.toList m i := by
  have hspan := Captures.span?_spans subject m i
  rw [if_pos hi] at hspan
  rcases h with h | ⟨b, e, h⟩
  · simp only [line, h.span, Report.groupLine, ← hspan]
    rfl
  · simp only [line, h.span, h.text, Report.groupLine, ← hspan]
    rfl

/-- **What captures tell of a group agrees.** When a subject matches, either nothing is told of a
group or it covers some characters of the subject: its bytes are those of these characters, a text
can be cut there, and the text is these characters. There are as many entries as groups and one
more, and the first is the whole subject. What a matcher for the same graph prints for the subject
are the lines that the captures tell. -/
theorem captured_texts_agree (hr : RegexBuilder.build ⟨pattern, limits⟩ = .ok r)
    (hs : r.isMatch subject = true) : ∃ k, r.captures? subject = some k ∧ k.subject = subject ∧
      (∀ i, k.Unset i ∨ ∃ b e, k.Covers i b e) ∧
      (k.size = r.groups + 1 ∧ k.texts = (List.range k.size).map k.text?) ∧
      k.text? 0 = some subject ∧
      ∀ m : Matcher, m.graph = r.graph →
        Report.subjectLines subject (m.run subject).1 (m.run subject).2 =
          "\n" ++ quoted subject ++ ": match\n" ++
            String.join ((List.range k.size).map k.line) := by
  obtain ⟨m, hm⟩ : ∃ m, r.matcher.run subject = (true, m) := ⟨_, Prod.ext hs rfl⟩
  obtain ⟨hzero, hclosed⟩ := span?_of_run hr hm
  have hgraph : m.graph = r.graph := (congrArg (·.2.graph) hm).symm
  have hsize := Captures.size_spans subject m
  have hagree := fun i => Captures.unset_or_covers (hclosed i)
  refine ⟨.ofSpans subject m.spans, by rw [Regex.captures?, hm], rfl, hagree, ⟨?_, rfl⟩, ?_, ?_⟩
  · rw [hsize, hgraph, Regex.groups]
  · rw [(Captures.covers_of_span? (Nat.zero_le _) (Nat.le_refl _) hzero).text, Captures.between,
      Captures.ofSpans, List.drop_zero, Nat.sub_zero, ← String.length_toList, List.take_length,
      String.ofList_toList]
  · intro m' hm'
    have hrun : m'.run subject = (true, m) := (Matcher.run_of_graph_eq hm' subject).trans hm
    rw [hrun, hsize, Report.subjectLines, if_pos rfl]
    congr 2
    refine List.map_congr_left fun i hi => ?_
    exact (Captures.line_eq (Nat.le_of_lt_succ (List.mem_range.1 hi)) (hagree i)).symm

end

/-- In `(a)|(.)(..)` along characters of two, three and four bytes. -/
theorem captured_texts_agree_wide : ∃ r k, RegexBuilder.build ⟨"(a)|(.)(..)", {}⟩ = .ok r ∧
    r.captures? "é日😀" = some k ∧ k.Unset 1 ∧ k.Covers 3 1 3 ∧ k.Unset 4 ∧
      k.byteRange? 3 = some (2, 9) ∧ k.text? 3 = some "日😀" := by
  let a : List Item := [.atom (.group 1 [[.atom (.test (.literal 'a')) none]]) none]
  let b : List Item := [.atom (.group 2 [[.atom (.test .any) none]]) none,
    .atom (.group 3 [[.atom (.test .any) none, .atom (.test .any) none]]) none]
  let r : Regex := ⟨"(a)|(.)(..)", Graph.ofPattern ⟨[a, b], 3⟩⟩
  have hr : RegexBuilder.build ⟨"(a)|(.)(..)", {}⟩ = .ok r := by cbv
  have hspans : (r.captures? "é日😀").map (fun k => (k.span? 1, k.span? 3, k.span? 4)) =
      some (none, some ⟨some 1, some 3⟩, none) := by decide +kernel
  have hs : r.isMatch "é日😀" = true := by decide +kernel
  obtain ⟨k, hk, hsubject, hagree, -⟩ := captured_texts_agree hr hs
  simp only [hk, Option.map_some, Option.some.injEq, Prod.mk.injEq] at hspans
  obtain ⟨hone, hthree, hfour⟩ := hspans
  have hunset : ∀ i, k.span? i = none → k.Unset i := by
    intro i hi
    rcases hagree i with h | ⟨_, _, h⟩
    · exact h
    · cases hi.symm.trans h.span
  have hcovers : k.Covers 3 1 3 := by
    rcases hagree 3 with h | ⟨_, _, h⟩
    · cases hthree.symm.trans h.span
    · cases hthree.symm.trans h.span
      exact h
  refine ⟨r, k, hr, hk, hunset 1 hone, hcovers, hunset 4 hfour, ?_, ?_⟩
  · rw [hcovers.bytes, hsubject]
    decide +kernel
  · rw [hcovers.text, Captures.between, hsubject]
    decide +kernel

end PatternGraph
