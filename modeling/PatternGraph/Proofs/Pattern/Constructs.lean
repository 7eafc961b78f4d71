import PatternGraph.Proofs.Pattern.Grammar

/-!
# Constructs

The reader takes one construct after the other, the grammar puts them together from both ends. What
a construct is in the grammar is said here once: a step of the reader is an atom, an anchor, a
quantifier, a parenthesis or a bar.

* `Derives.append`, `Derives.bar`: a pattern goes on with a branch, or ends in front of a bar;
* `Reading.Reads`: one construct, in the text and in what has been read;
  **`Reading.reads_of_next`**: which the reader takes in one step.
-/

namespace PatternGraph

/-! ## Patterns that go on -/

section

variable {K : List Char → List Char → Prop} {part : Part} {m n k : Nat} {s t u : List Char}

theorem Derives.append (h : Derives K part m s n t) (hpart : part ≠ .atom) :
    Derives K .branch n t k u → Derives K part m s k u := by
  induction h with
  | single _ ih => exact fun h' => .single (ih nofun h')
  | choice hb _ _ ih => exact fun h' => .choice hb (ih nofun h')
  | empty => exact id
  | anchorStart _ ih => exact fun h' => .anchorStart (ih nofun h')
  | anchorEnd _ ih => exact fun h' => .anchorEnd (ih nofun h')
  | item ha hq _ _ ih => exact fun h' => .item ha hq (ih nofun h')
  | literal | any | group | bracket | backref | escape => exact absurd rfl hpart

theorem Derives.bar (h : Derives K .pattern m s n ('|' :: t)) : Derives K .pattern m s n t := by
  generalize hp : Part.pattern = part at h
  generalize hu : '|' :: t = u at h
  induction h with
  | single hb =>
    subst hu
    exact .choice hb (.single .empty)
  | choice hb _ _ ih => exact .choice hb (ih rfl hu)
  | _ => cases hp

end

/-! ## One construct -/

namespace Reading

/-- The latest item is an atom that may still be quantified. -/
def Quantifiable (r : Reading) : Prop := ∃ a items, r.scope.items = .atom a none :: items

/-- One construct of the text, and what is done with it. -/
inductive Reads (r : Reading) : Reading → Prop
  | atom (c : Cursor) (nodes : Nat) (a : Atom) :
    Derives BracketText .atom r.groups r.cursor.rest r.groups c.rest →
    Reads r { r with cursor := c, nodes, scope := r.scope.add (.atom a none) }
  | anchor (c : Cursor) (nodes : Nat) (a : Anchor) :
    Derives BracketText .branch r.groups r.cursor.rest r.groups c.rest →
    Reads r { r with cursor := c, nodes, scope := r.scope.add (.anchor a) }
  | quantified (c : Cursor) (nodes : Nat) (a : Atom) (items : Branch) (q : Quantifier) :
    r.scope.items = .atom a none :: items → QuantifierText r.cursor.rest c.rest →
    Reads r { r with cursor := c, nodes, scope := ⟨r.scope.branches, .atom a (some q) :: items⟩ }
  | opens (c : Cursor) (nodes : Nat) : r.cursor.rest = '(' :: c.rest →
    Reads r ⟨c, nodes, r.groups + 1, {}, ⟨r.groups + 1, r.cursor.offset, r.scope⟩ :: r.opened⟩
  | closes (c : Cursor) (g : OpenGroup) (opened : List OpenGroup) : r.cursor.rest = ')' :: c.rest →
    r.opened = g :: opened →
    Reads r { r with
      cursor := c
      scope := g.outer.add (.atom (.group g.number r.scope.body) none)
      opened }
  | bar (c : Cursor) : r.cursor.rest = '|' :: c.rest →
    Reads r { r with cursor := c, scope := r.scope.bar }

section

variable {limits : Limits} {c : Cursor} {r s : Reading} {rest : List Char}

theorem reads_of_addAtom {a : Atom} (hs : r.addAtom limits a c = .ok s)
    (ha : Derives BracketText .atom r.groups r.cursor.rest r.groups c.rest) : r.Reads s := by
  obtain ⟨-, rfl⟩ := add_eq_ok.1 hs
  exact .atom c _ a ha

theorem reads_of_anchor {a : Anchor} (hs : r.add limits (.anchor a) c = .ok s)
    (ha : Derives BracketText .branch r.groups r.cursor.rest r.groups c.rest) : r.Reads s := by
  obtain ⟨-, rfl⟩ := add_eq_ok.1 hs
  exact .anchor c _ a ha

theorem reads_of_quantify {quantifier : Cursor → Except Fault (Quantifier × Cursor)}
    (hs : r.quantify limits quantifier c = .ok s)
    (hq : ∀ {q d}, quantifier c = .ok (q, d) → QuantifierText r.cursor.rest d.rest) :
    r.Reads s := by
  obtain ⟨a, items, q, d, hi, hd, -, rfl⟩ := quantify_eq_ok.1 hs
  exact .quantified d _ a items q hi (hq hd)

theorem reads_of_addEscape (hc : r.cursor.rest = '\\' :: rest)
    (hs : r.addEscape limits ⟨rest, r.cursor.offset + 1⟩ = .ok s) : r.Reads s := by
  obtain ⟨x, rest', hrest, ⟨-, k, d, hd, hk, hs⟩ | ⟨hx, hs⟩⟩ := addEscape_eq_ok.1 hs
  · refine reads_of_addAtom hs ?_
    rw [hc]
    exact .backref ((numeral_iff _).2 ⟨d.offset, hd⟩) hk
  · refine reads_of_addAtom hs ?_
    obtain rfl : rest = x :: rest' := hrest
    rw [hc]
    exact .escape (by simpa using hx)

/-- **What the reader takes in one step is one construct.** -/
theorem reads_of_next {x : Char} (hc : r.cursor.rest = x :: rest)
    (hs : r.next limits x ⟨rest, r.cursor.offset + 1⟩ = .ok s) : r.Reads s := by
  unfold next at hs
  split at hs
  · obtain ⟨-, -, rfl⟩ := openGroup_eq_ok.1 hs
    exact .opens _ _ hc
  · obtain ⟨g, opened, ho, rfl⟩ := closeGroup_eq_ok.1 hs
    exact .closes _ g opened hc ho
  · cases hs
    exact .bar _ hc
  · refine reads_of_quantify hs fun hd => ?_
    cases hd
    rw [hc]
    exact .optional
  · refine reads_of_quantify hs fun hd => ?_
    cases hd
    rw [hc]
    exact .star
  · refine reads_of_quantify hs fun hd => ?_
    cases hd
    rw [hc]
    exact .plus
  · refine reads_of_quantify hs fun hd => ?_
    rw [hc]
    exact (quantifierText_iff _ _).2 ⟨_, _, hd, rfl⟩
  · exact reads_of_anchor hs (hc ▸ .anchorStart .empty)
  · exact reads_of_anchor hs (hc ▸ .anchorEnd .empty)
  · exact reads_of_addAtom hs (hc ▸ .any)
  · obtain ⟨k, d, hd, hs⟩ := addBracket_eq_ok.1 hs
    refine reads_of_addAtom hs ?_
    rw [hc]
    exact .bracket ((bracketText_iff _ _).2 ⟨k, d, hd, rfl⟩)
  · exact reads_of_addEscape hc hs
  · refine reads_of_addAtom hs ?_
    rw [hc]
    exact .literal (by simp_all [metacharacters])

end

end Reading

end PatternGraph
