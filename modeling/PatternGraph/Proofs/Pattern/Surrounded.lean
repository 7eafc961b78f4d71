import PatternGraph.Proofs.Pattern.Fits
import PatternGraph.Proofs.Pattern.Within

/-!
# Reading a pattern inside a longer one

A pattern that can be read by itself is read in the same way where it stands in a longer text,
except that its groups have other numbers there: those that come next.

* `Atom.renumber`, `Branch.renumber`, `Branches.renumber`: groups with other numbers;
* `Surroundings`: what stands around a pattern in a longer text;
* `Surroundings.place`: a scope and the groups open around it, as they are in the longer text;
* `Reading.Inside`: one reading is in the longer text what the other is by itself,
  **`Inside.next`**, **`Inside.toEnd`**: it stays so.
-/

namespace PatternGraph

/-! ## Groups with other numbers -/

mutual

/-- The atom, its groups with other numbers. Back references are left as they are. -/
def Atom.renumber (number : Nat → Nat) : Atom → Atom
  | .test t => .test t
  | .backref k => .backref k
  | .group k branches => .group (number k) (Branches.renumber number branches)

/-- The branches, all groups with other numbers. -/
def Branches.renumber (number : Nat → Nat) : List (List Item) → List (List Item)
  | [] => []
  | b :: bs => Branch.renumber number b :: Branches.renumber number bs

/-- The items of a branch, all groups with other numbers. -/
def Branch.renumber (number : Nat → Nat) : List Item → List Item
  | [] => []
  | .anchor a :: rest => .anchor a :: Branch.renumber number rest
  | .atom a q :: rest => .atom (a.renumber number) q :: Branch.renumber number rest

end

mutual

theorem Atom.renumber_id : ∀ a : Atom, a.renumber id = a
  | .test _ => rfl
  | .backref _ => rfl
  | .group k bs => congrArg (Atom.group k) (Branches.renumber_id bs)

theorem Branches.renumber_id : ∀ bs : List (List Item), Branches.renumber id bs = bs
  | [] => rfl
  | b :: bs => by rw [Branches.renumber, Branch.renumber_id b, Branches.renumber_id bs]

theorem Branch.renumber_id : ∀ b : List Item, Branch.renumber id b = b
  | [] => rfl
  | .anchor _ :: rest => by rw [Branch.renumber, Branch.renumber_id rest]
  | .atom a _ :: rest => by rw [Branch.renumber, Atom.renumber_id a, Branch.renumber_id rest]

end

section

variable {number : Nat → Nat}

theorem Branch.renumber_append (b b' : Branch) :
    Branch.renumber number (b ++ b') = Branch.renumber number b ++ Branch.renumber number b' := by
  induction b with
  | nil => rfl
  | cons item b ih =>
    cases item with
    | anchor a => rw [List.cons_append, Branch.renumber, ih]; rfl
    | atom a q => rw [List.cons_append, Branch.renumber, ih]; rfl

theorem Branch.renumber_reverse (b : Branch) :
    Branch.renumber number b.reverse = (Branch.renumber number b).reverse := by
  induction b with
  | nil => rfl
  | cons item b ih =>
    rw [List.reverse_cons, Branch.renumber_append, ih]
    cases item with
    | anchor a => rw [Branch.renumber, Branch.renumber, Branch.renumber, List.reverse_cons]
    | atom a q => rw [Branch.renumber, Branch.renumber, Branch.renumber, List.reverse_cons]

theorem Branches.renumber_eq_map (bs : Branches) :
    Branches.renumber number bs = bs.map (Branch.renumber number) := by
  induction bs with
  | nil => rfl
  | cons b bs ih => rw [Branches.renumber, ih, List.map_cons]

end

/-! ## Scopes -/

namespace Scope

/-- The scope, all groups with other numbers. -/
def renumber (number : Nat → Nat) (s : Scope) : Scope :=
  ⟨Branches.renumber number s.branches, Branch.renumber number s.items⟩

theorem renumber_id (s : Scope) : s.renumber id = s := by
  rw [renumber, Branches.renumber_id, Branch.renumber_id]

theorem renumber_bar (number : Nat → Nat) (s : Scope) :
    s.bar.renumber number = (s.renumber number).bar := by
  simp only [renumber, bar, Branches.renumber, Branch.renumber, Branch.renumber_reverse]

theorem renumber_body (number : Nat → Nat) (s : Scope) :
    Branches.renumber number s.body = (s.renumber number).body := by
  rw [body, body, ← renumber_bar, Branches.renumber_eq_map, List.map_reverse,
    ← Branches.renumber_eq_map]
  rfl

/-- The scope with more branches in front of its own, the latest first. -/
def behind (branches : Branches) (s : Scope) : Scope := ⟨s.branches ++ branches, s.items⟩

/-- The scope with other items in the current branch. -/
def withItems (items : Branch) (s : Scope) : Scope := { s with items }

theorem behind_nil (s : Scope) : s.behind [] = s := by rw [behind, List.append_nil]

theorem body_behind (branches : Branches) (s : Scope) :
    (s.behind branches).body = branches.reverse ++ s.body := by
  rw [body, body, bar, behind, bar, ← List.cons_append, List.reverse_append]

end Scope

/-! ## What stands around a pattern -/

/-- What stands around a pattern in a longer text: the number of characters and groups in front of
it, the numbers of its own groups, the branches in front of it in the scope that it stands in, the
latest first, the groups around it, and the text behind it. -/
structure Surroundings where
  ahead : Nat
  groups : Nat
  number : Nat → Nat
  branches : Branches
  around : List OpenGroup
  tail : List Char
  number_succ : ∀ k, number (k + 1) = groups + k + 1
  delimits : Delimits tail

namespace Surroundings

variable (e : Surroundings)

/-- A scope and the open groups around it, as they are in the longer text. -/
def place : Scope → List OpenGroup → Scope × List OpenGroup
  | s, [] => ((s.renumber e.number).behind e.branches, e.around)
  | s, g :: opened =>
    let outer := place g.outer opened
    (s.renumber e.number, ⟨e.number g.number, e.ahead + g.offset, outer.1⟩ :: outer.2)

theorem place_map (f f' : Scope → Scope) {s : Scope}
    (hrenumber : (f s).renumber e.number = f' (s.renumber e.number))
    (hbehind : ∀ bs t, f' (Scope.behind bs t) = (f' t).behind bs) (opened : List OpenGroup) :
    e.place (f s) opened = (f' (e.place s opened).1, (e.place s opened).2) := by
  cases opened with
  | nil => rw [place, place, hrenumber, hbehind]
  | cons g opened => rw [place, place, hrenumber]

theorem items_place (s : Scope) (opened : List OpenGroup) :
    (e.place s opened).1.items = Branch.renumber e.number s.items := by
  cases opened <;> rfl

end Surroundings

/-! ## One reading inside the other -/

/-- What `r` has read of a text by itself, `r'` has read of it in the longer text. -/
structure Reading.Inside (e : Surroundings) (r r' : Reading) : Prop where
  cursor : r'.cursor = r.cursor.within e.tail e.ahead
  groups : r'.groups = e.groups + r.groups
  place : (r'.scope, r'.opened) = e.place r.scope r.opened

namespace Reading.Inside

section

variable {limits limits' : Limits} {e : Surroundings} {r r' s s' : Reading} {c : Cursor}

theorem scope (h : r.Inside e r') : r'.scope = (e.place r.scope r.opened).1 :=
  congrArg Prod.fst h.place

theorem opened (h : r.Inside e r') : r'.opened = (e.place r.scope r.opened).2 :=
  congrArg Prod.snd h.place

theorem add {item item' : Item} (h : r.Inside e r')
    (hi : Branch.renumber e.number [item] = [item']) (hs : r.add limits item c = .ok s)
    (hs' : r'.add limits' item' (c.within e.tail e.ahead) = .ok s') : s.Inside e s' := by
  obtain ⟨-, rfl⟩ := add_eq_ok.1 hs
  obtain ⟨-, rfl⟩ := add_eq_ok.1 hs'
  refine ⟨rfl, h.groups, ?_⟩
  have happ : Branch.renumber e.number (item :: r.scope.items) =
      Branch.renumber e.number [item] ++ Branch.renumber e.number r.scope.items :=
    Branch.renumber_append [item] _
  have hadd : (r.scope.add item).renumber e.number = (r.scope.renumber e.number).add item' := by
    rw [Scope.renumber, Scope.renumber, Scope.add, Scope.add, happ, hi]
    rfl
  show (r'.scope.add item', r'.opened) = e.place (r.scope.add item) r.opened
  rw [e.place_map (Scope.add · item) (Scope.add · item') hadd fun _ _ => rfl, ← h.place]

theorem openGroup (h : r.Inside e r') (hs : r.openGroup limits c = .ok s)
    (hs' : r'.openGroup limits' (c.within e.tail e.ahead) = .ok s') : s.Inside e s' := by
  obtain ⟨-, -, rfl⟩ := openGroup_eq_ok.1 hs
  obtain ⟨-, -, rfl⟩ := openGroup_eq_ok.1 hs'
  refine ⟨rfl, congrArg (· + 1) h.groups, ?_⟩
  show (({} : Scope), OpenGroup.mk _ _ r'.scope :: r'.opened) =
    e.place {} (⟨r.groups + 1, r.cursor.offset, r.scope⟩ :: r.opened)
  rw [Surroundings.place, e.number_succ, ← h.place, h.groups, h.cursor]
  rfl

theorem closeGroup (h : r.Inside e r') (hs : r.closeGroup c = .ok s)
    (hs' : r'.closeGroup (c.within e.tail e.ahead) = .ok s') : s.Inside e s' := by
  obtain ⟨g, opened, ho, rfl⟩ := closeGroup_eq_ok.1 hs
  obtain ⟨g', opened', ho', rfl⟩ := closeGroup_eq_ok.1 hs'
  have hplace := h.place
  rw [ho, ho', Surroundings.place] at hplace
  obtain ⟨hscope, hopened⟩ := Prod.mk.inj hplace
  obtain ⟨rfl, rfl⟩ := List.cons.inj hopened
  refine ⟨rfl, h.groups, ?_⟩
  let closed : Item := .atom (.group g.number r.scope.body) none
  let closed' : Item := .atom (.group (e.number g.number) r'.scope.body) none
  have hadd : (g.outer.add closed).renumber e.number = (g.outer.renumber e.number).add closed' := by
    simp only [closed', hscope, ← Scope.renumber_body]
    rfl
  show (Scope.add _ closed', _) = e.place (g.outer.add closed) opened
  rw [e.place_map (Scope.add · closed) (Scope.add · closed') hadd fun _ _ => rfl]

theorem bar (h : r.Inside e r') (hs : r.bar c = .ok s)
    (hs' : r'.bar (c.within e.tail e.ahead) = .ok s') : s.Inside e s' := by
  cases hs
  cases hs'
  refine ⟨rfl, h.groups, ?_⟩
  show (r'.scope.bar, r'.opened) = e.place r.scope.bar r.opened
  rw [e.place_map Scope.bar Scope.bar (r.scope.renumber_bar e.number) fun _ _ => rfl, ← h.place]

theorem quantify {quantifier quantifier' : Cursor → Except Fault (Quantifier × Cursor)}
    (hq : ∀ {q d}, quantifier c = .ok (q, d) →
      quantifier' (c.within e.tail e.ahead) = .ok (q, d.within e.tail e.ahead))
    (h : r.Inside e r') (hs : r.quantify limits quantifier c = .ok s)
    (hs' : r'.quantify limits' quantifier' (c.within e.tail e.ahead) = .ok s') :
    s.Inside e s' := by
  obtain ⟨a, items, q, d, hi, hd, -, rfl⟩ := quantify_eq_ok.1 hs
  obtain ⟨a', items', q', d', hi', hd', -, rfl⟩ := quantify_eq_ok.1 hs'
  have hitems : Item.atom a' none :: items' =
      .atom (a.renumber e.number) none :: Branch.renumber e.number items := by
    rw [← hi', h.scope, e.items_place, hi]
    rfl
  rw [hq hd] at hd'
  cases hitems
  cases hd'
  refine ⟨rfl, h.groups, ?_⟩
  let items' := Branch.renumber e.number items
  show (r'.scope.withItems (.atom (a.renumber e.number) (some q) :: items'), r'.opened) =
    e.place (r.scope.withItems (.atom a (some q) :: items)) r.opened
  rw [e.place_map (Scope.withItems (.atom a (some q) :: items))
    (Scope.withItems (.atom (a.renumber e.number) (some q) :: items')) rfl fun _ _ => rfl,
    ← h.place]

/-- The quantifiers that are one character. -/
theorem quantifyBy (q : Quantifier) (h : r.Inside e r')
    (hs : r.quantify limits (fun c => .ok (q, c)) c = .ok s)
    (hs' : r'.quantify limits' (fun c => .ok (q, c)) (c.within e.tail e.ahead) = .ok s') :
    s.Inside e s' :=
  h.quantify (fun hd => by cases hd; rfl) hs hs'

theorem addBracket (h : r.Inside e r') (hs : r.addBracket limits c = .ok s)
    (hs' : r'.addBracket limits' (c.within e.tail e.ahead) = .ok s') : s.Inside e s' := by
  obtain ⟨k, d, hk, hs⟩ := addBracket_eq_ok.1 hs
  obtain ⟨k', d', hk', hs'⟩ := addBracket_eq_ok.1 hs'
  rw [bracket_within hk] at hk'
  cases hk'
  exact h.add rfl hs hs'

theorem addEscape (h : r.Inside e r') (hs : r.addEscape limits c = .ok s)
    (hs' : r'.addEscape limits' (c.within e.tail e.ahead) = .ok s') : s.Inside e s' := by
  obtain ⟨x, rest, hc, hs⟩ := addEscape_eq_ok.1 hs
  obtain ⟨x', rest', hc', hs'⟩ := addEscape_eq_ok.1 hs'
  rw [Cursor.within, hc] at hc'
  cases hc'
  rcases hs with ⟨hx, k, d, hk, -, hs⟩ | ⟨hx, hs⟩
  · rcases hs' with ⟨-, k', d', hk', -, hs'⟩ | ⟨hx', -⟩
    · rw [number_within e.delimits hk] at hk'
      cases hk'
      exact h.add rfl hs hs'
    · exact absurd hx hx'
  · rcases hs' with ⟨hx', -⟩ | ⟨-, hs'⟩
    · exact absurd hx' hx
    · exact h.add rfl hs hs'

/-- **One construct after the other, the reading inside stays what the other one is.** -/
theorem next (h : r.Inside e r') {x : Char} (hs : r.next limits x c = .ok s)
    (hs' : r'.next limits' x (c.within e.tail e.ahead) = .ok s') : s.Inside e s' := by
  unfold Reading.next at hs
  split at hs
  · exact h.openGroup hs hs'
  · exact h.closeGroup hs hs'
  · exact h.bar hs hs'
  · exact h.quantifyBy .optional hs hs'
  · exact h.quantifyBy .star hs hs'
  · exact h.quantifyBy .plus hs hs'
  · have hq : ∀ {q d}, Cursor.counted r.cursor.offset c = .ok (q, d) →
        Cursor.counted r'.cursor.offset (c.within e.tail e.ahead) =
          .ok (q, d.within e.tail e.ahead) := by
      rw [h.cursor]
      exact counted_within
    exact h.quantify hq hs hs'
  · exact h.add rfl hs hs'
  · exact h.add rfl hs hs'
  · exact h.add rfl hs hs'
  · exact h.addBracket hs hs'
  · exact h.addEscape hs hs'
  · simp only [Reading.next] at hs'
    exact h.add rfl hs hs'

end

end Reading.Inside

/-! ## The whole text -/

/-- **When the text has been read, what stands behind it is left to read.** -/
theorem Reading.Inside.toEnd {limits limits' : Limits} {e : Surroundings} {r r' t t' : Reading}
    (h : r.Inside e r') (hr : r.toEnd limits = .ok t) (hr' : r'.toEnd limits' = .ok t') :
    ∃ s, t.Inside e s ∧ s.cursor.rest = e.tail ∧ s.toEnd limits' = .ok t' := by
  fun_induction Reading.toEnd limits r generalizing r' with
  | case1 r hc =>
    cases hr
    refine ⟨r', h, ?_, hr'⟩
    rw [h.cursor, Cursor.within, hc, List.nil_append]
  | case2 => cases hr
  | case3 r x rest hc s hs ih =>
    have hc' : r'.cursor.rest = x :: (rest ++ e.tail) := by rw [h.cursor, Cursor.within, hc]; rfl
    obtain ⟨s', hs', hr'⟩ := exists_next_of_toEnd hr' hc'
    rw [h.cursor] at hs'
    exact ih (h.next hs hs') hr hr'

end PatternGraph
