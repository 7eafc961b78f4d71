import PatternGraph.Pattern.Reading
import PatternGraph.Search.State

/-!
# What the reader promises about a pattern

* `Item.Every`, `Branch.Every`, `Branches.Every`: a property of all items of a tree, at any depth;
* `Item.Fits`: the number of a group is one of those given out, a back reference goes to one of
  them, and bounds are in order and within what can be counted;
* `Reading.Grows`: all that one construct can do to what has been read;
* `Item.Invariant`, **`every_of_read`**: what holds of an item when it is read holds of all items;
* **`fits_of_read`**: in a pattern that has been read every item fits, **`filled_of_read`**: and
  every group has a branch.
-/

namespace PatternGraph

/-! ## All items of a tree -/

mutual

/-- Every item inside the atom has the property. -/
def Atom.Every (P : Item → Prop) : Atom → Prop
  | .test _ => True
  | .backref _ => True
  | .group _ branches => Branches.Every P branches

/-- Every item of the branches has the property, and so have all items inside it. -/
def Branches.Every (P : Item → Prop) : List (List Item) → Prop
  | [] => True
  | b :: bs => Branch.Every P b ∧ Branches.Every P bs

/-- Every item of the branch has the property, and so have all items inside it. -/
def Branch.Every (P : Item → Prop) : List Item → Prop
  | [] => True
  | .anchor a :: rest => P (.anchor a) ∧ Branch.Every P rest
  | .atom a q :: rest => P (.atom a q) ∧ a.Every P ∧ Branch.Every P rest

end

/-- The item has the property, and so have all items inside it. -/
def Item.Every (P : Item → Prop) (item : Item) : Prop := Branch.Every P [item]

section

variable {P Q : Item → Prop}

theorem Branch.every_cons {item : Item} {rest : Branch} :
    Branch.Every P (item :: rest) ↔ item.Every P ∧ Branch.Every P rest := by
  cases item <;> simp [Item.Every, Branch.Every, and_assoc]

theorem Branch.every_iff {b : Branch} : Branch.Every P b ↔ ∀ item ∈ b, item.Every P := by
  induction b with
  | nil => simp [Branch.Every]
  | cons item rest ih => simp [Branch.every_cons, ih]

theorem Branches.every_iff {bs : Branches} :
    Branches.Every P bs ↔ ∀ b ∈ bs, ∀ item ∈ b, item.Every P := by
  induction bs with
  | nil => simp [Branches.Every]
  | cons b bs ih => simp [Branches.Every, Branch.every_iff, ih]

mutual

theorem Atom.Every.mono (h : ∀ item, P item → Q item) : ∀ {a : Atom}, a.Every P → a.Every Q
  | .test _, _ => trivial
  | .backref _, _ => trivial
  | .group _ _, ha => Branches.Every.mono h ha

theorem Branches.Every.mono (h : ∀ item, P item → Q item) :
    ∀ {bs : List (List Item)}, Branches.Every P bs → Branches.Every Q bs
  | [], _ => trivial
  | _ :: _, hb => ⟨Branch.Every.mono h hb.1, Branches.Every.mono h hb.2⟩

theorem Branch.Every.mono (h : ∀ item, P item → Q item) :
    ∀ {b : List Item}, Branch.Every P b → Branch.Every Q b
  | [], _ => trivial
  | .anchor _ :: _, hb => ⟨h _ hb.1, Branch.Every.mono h hb.2⟩
  | .atom _ _ :: _, hb => ⟨h _ hb.1, Atom.Every.mono h hb.2.1, Branch.Every.mono h hb.2.2⟩

end

theorem Item.Every.mono (h : ∀ item, P item → Q item) {item : Item} (hi : item.Every P) :
    item.Every Q := Branch.Every.mono h hi

end

/-! ## Numbers that fit -/

/-- The bounds are in order, and all passes up to them can be counted. -/
def Bounds.Fit (b : Bounds) : Prop :=
  b.min ≤ countLimit ∧ ∀ max ∈ b.max, b.min ≤ max ∧ max ≤ countLimit

/-- A quantifier with bounds that fit. -/
def Quantifier.Fits : Quantifier → Prop
  | .counted b => b.Fit
  | _ => True

/-- A group that bears one of the numbers up to `groups`, or a reference to one of them. -/
def Atom.Fits (groups : Nat) : Atom → Prop
  | .test _ => True
  | .backref k => k ≤ groups
  | .group k _ => k ≤ groups

/-- An atom that fits with a quantifier that does, or an anchor. -/
def Item.Fits (groups : Nat) : Item → Prop
  | .anchor _ => True
  | .atom a q => a.Fits groups ∧ ∀ x ∈ q, x.Fits

theorem Atom.Fits.mono {a : Atom} {m n : Nat} (hmn : m ≤ n) (h : a.Fits m) : a.Fits n := by
  cases a with
  | test t => trivial
  | backref k | group k _ => exact Nat.le_trans h hmn

theorem Item.Fits.mono {item : Item} {m n : Nat} (hmn : m ≤ n) (h : item.Fits m) :
    item.Fits n := by
  cases item with
  | anchor a => trivial
  | atom a q => exact ⟨h.1.mono hmn, h.2⟩

/-! ## Reading -/

section

variable {limits : Limits} {c d : Cursor} {r s : Reading}

theorem Cursor.le_countLimit_of_number {n : Nat} (h : c.number = .ok (n, d)) :
    n ≤ countLimit := by
  obtain ⟨-, -, hlt, -⟩ := number_eq_ok.1 h
  exact Nat.le_pred_of_lt hlt

theorem Cursor.le_countLimit_of_upperBound {min n : Nat} {max : Option Nat}
    (hmin : min ≤ countLimit) (h : c.upperBound min = .ok (max, d)) (hn : n ∈ max) :
    n ≤ countLimit := by
  rcases upperBound_eq_ok.1 h with ⟨-, -, rfl, -⟩ | ⟨rest, high, -, -, rfl, hhigh⟩ | ⟨-, rfl, -⟩
  · simp at hn
  · obtain rfl : high = n := by simpa using hn
    exact le_countLimit_of_number hhigh
  · obtain rfl : min = n := by simpa using hn
    exact hmin

theorem Cursor.fit_of_bounds {opening : Nat} {b : Bounds} (h : c.bounds opening = .ok (b, d)) :
    b.Fit := by
  obtain ⟨e, e', hmin, hmax, -, -, hle⟩ := bounds_eq_ok.1 h
  have hlow : b.min ≤ countLimit := le_countLimit_of_number hmin
  exact ⟨hlow, fun max hm => ⟨hle max hm, le_countLimit_of_upperBound hlow hmax hm⟩⟩

/-- An item that takes one node, without a quantifier so far. -/
def Item.Plain (groups : Nat) : Item → Prop
  | .anchor _ => True
  | .atom (.group _ _) _ => False
  | .atom a q => a.Fits groups ∧ q = none

/-- What one construct can do to what has been read: add an item, open or close a group, end a
branch, or quantify the latest atom. -/
inductive Reading.Grows (r : Reading) : Reading → Prop
  | item (c : Cursor) (item : Item) : item.Plain r.groups →
    Grows r { r with cursor := c, nodes := r.nodes + 1, scope := r.scope.add item }
  | opens (c : Cursor) :
    Grows r ⟨c, r.nodes + 2, r.groups + 1, {}, ⟨r.groups + 1, r.cursor.offset, r.scope⟩ :: r.opened⟩
  | closes (c : Cursor) (g : OpenGroup) (opened : List OpenGroup) : r.opened = g :: opened →
    Grows r { r with
      cursor := c
      scope := g.outer.add (.atom (.group g.number r.scope.body) none)
      opened }
  | bar (c : Cursor) : Grows r { r with cursor := c, scope := r.scope.bar }
  | quantified (c : Cursor) (a : Atom) (items : Branch) (q : Quantifier) :
    r.scope.items = .atom a none :: items → q.Fits →
    Grows r { r with
      cursor := c
      nodes := r.nodes + q.nodes
      scope := ⟨r.scope.branches, .atom a (some q) :: items⟩ }

namespace Reading

theorem grows_of_add {item : Item} (h : r.add limits item c = .ok s)
    (hi : item.Plain r.groups) : r.Grows s := by
  obtain ⟨-, rfl⟩ := add_eq_ok.1 h
  exact .item c item hi

theorem grows_of_quantify {quantifier : Cursor → Except Fault (Quantifier × Cursor)}
    (hq : ∀ {q d}, quantifier c = .ok (q, d) → q.Fits)
    (h : r.quantify limits quantifier c = .ok s) : r.Grows s := by
  obtain ⟨a, items, q, d, hi, hd, -, rfl⟩ := quantify_eq_ok.1 h
  exact .quantified d a items q hi (hq hd)

theorem grows_of_addEscape (h : r.addEscape limits c = .ok s) : r.Grows s := by
  obtain ⟨x, rest, -, ⟨-, k, d, -, hk, hs⟩ | ⟨-, hs⟩⟩ := addEscape_eq_ok.1 h
  · exact grows_of_add hs ⟨hk, rfl⟩
  · exact grows_of_add hs ⟨trivial, rfl⟩

theorem grows_of_next {x : Char} (h : r.next limits x c = .ok s) : r.Grows s := by
  unfold next at h
  split at h
  · obtain ⟨-, -, rfl⟩ := openGroup_eq_ok.1 h
    exact .opens c
  · obtain ⟨g, opened, ho, rfl⟩ := closeGroup_eq_ok.1 h
    exact .closes c g opened ho
  · cases h
    exact .bar c
  · exact grows_of_quantify (fun hd => by cases hd; trivial) h
  · exact grows_of_quantify (fun hd => by cases hd; trivial) h
  · exact grows_of_quantify (fun hd => by cases hd; trivial) h
  · refine grows_of_quantify (fun hd => ?_) h
    obtain ⟨b, hb, rfl⟩ := Cursor.counted_eq_ok.1 hd
    exact Cursor.fit_of_bounds hb
  · exact grows_of_add h trivial
  · exact grows_of_add h trivial
  · exact grows_of_add h ⟨trivial, rfl⟩
  · obtain ⟨k, d, -, hs⟩ := addBracket_eq_ok.1 h
    exact grows_of_add hs ⟨trivial, rfl⟩
  · exact grows_of_addEscape h
  · exact grows_of_add h ⟨trivial, rfl⟩

end Reading

/-! ## What holds of all items -/

/-- A property that items have when they are read, given the number of groups so far: those that
take one node, a group when it is closed, and an atom when it is quantified. -/
structure Item.Invariant (P : Nat → Item → Prop) : Prop where
  mono : ∀ {m n : Nat} {item : Item}, m ≤ n → P m item → P n item
  plain : ∀ {n : Nat} {item : Item}, item.Plain n → P n item
  group : ∀ {n k : Nat} {branches : Branches}, k ≤ n → branches ≠ [] →
    P n (.atom (.group k branches) none)
  quantified : ∀ {n : Nat} {a : Atom} {q : Quantifier}, P n (.atom a none) → q.Fits →
    P n (.atom a (some q))

/-- Every item of a scope has the property, and so have all items inside it. -/
def Scope.Every (P : Item → Prop) (s : Scope) : Prop :=
  (∀ item ∈ s.items, item.Every P) ∧ ∀ b ∈ s.branches, ∀ item ∈ b, item.Every P

/-- All that has been read so far has the property. -/
structure Reading.Every (P : Nat → Item → Prop) (r : Reading) : Prop where
  scope : r.scope.Every (P r.groups)
  opened : ∀ o ∈ r.opened, o.number ≤ r.groups ∧ o.outer.Every (P r.groups)

section

variable {P Q : Item → Prop} {t : Scope}

theorem Scope.Every.mono (h : ∀ item, P item → Q item) (ht : t.Every P) : t.Every Q :=
  ⟨fun item hi => (ht.1 item hi).mono h, fun b hb item hi => (ht.2 b hb item hi).mono h⟩

theorem Scope.Every.add {item : Item} (h : t.Every P) (hi : item.Every P) : (t.add item).Every P :=
  ⟨fun x hx => (List.mem_cons.1 hx).elim (· ▸ hi) (h.1 x), h.2⟩

theorem Scope.Every.bar (h : t.Every P) : t.bar.Every P := by
  refine ⟨fun _ hx => (List.not_mem_nil hx).elim, fun b hb => ?_⟩
  rcases List.mem_cons.1 hb with rfl | hb
  · exact fun item hi => h.1 item (List.mem_reverse.1 hi)
  · exact h.2 b hb

theorem Scope.Every.body (h : t.Every P) : Branches.Every P t.body :=
  Branches.every_iff.2 fun b hb => h.bar.2 b (List.mem_reverse.1 hb)

end

theorem Scope.body_ne_nil (s : Scope) : s.body ≠ [] := by simp [body, bar]

section

variable {P : Nat → Item → Prop} (hP : Item.Invariant P)

include hP

theorem Reading.Every.grows (h : r.Every P) (hs : r.Grows s) : s.Every P := by
  cases hs with
  | item c item hi =>
    refine ⟨h.scope.add ?_, h.opened⟩
    match item, hi with
    | .anchor _, hi => exact ⟨hP.plain hi, trivial⟩
    | .atom (.test _) _, hi => exact ⟨hP.plain hi, trivial, trivial⟩
    | .atom (.backref _) _, hi => exact ⟨hP.plain hi, trivial, trivial⟩
  | opens c =>
    have hle : r.groups ≤ r.groups + 1 := Nat.le_succ _
    refine ⟨⟨by simp, by simp⟩, fun o ho => ?_⟩
    rcases List.mem_cons.1 ho with rfl | ho
    · exact ⟨Nat.le_refl _, h.scope.mono fun _ => hP.mono hle⟩
    · exact ⟨Nat.le_trans (h.opened o ho).1 hle, (h.opened o ho).2.mono fun _ => hP.mono hle⟩
  | closes c g opened ho =>
    have hg := h.opened g (by rw [ho]; exact List.mem_cons_self)
    have hgroup := hP.group hg.1 r.scope.body_ne_nil
    refine ⟨hg.2.add ⟨hgroup, h.scope.body, trivial⟩, fun o hm => h.opened o ?_⟩
    rw [ho]
    exact List.mem_cons_of_mem g hm
  | bar c => exact ⟨h.scope.bar, h.opened⟩
  | quantified c a items q hi hq =>
    refine ⟨⟨fun x hx => ?_, h.scope.2⟩, h.opened⟩
    rcases List.mem_cons.1 hx with rfl | hx
    · have ha := h.scope.1 (.atom a none) (by rw [hi]; exact List.mem_cons_self)
      exact ⟨hP.quantified ha.1 hq, ha.2⟩
    · exact h.scope.1 x (by rw [hi]; exact List.mem_cons_of_mem _ hx)

theorem Reading.Every.toEnd (h : r.Every P) (hs : r.toEnd limits = .ok s) : s.Every P := by
  fun_induction Reading.toEnd limits r with
  | case1 => cases hs; exact h
  | case2 => cases hs
  | case3 _ _ _ _ _ hn ih => exact ih (h.grows hP (grows_of_next hn)) hs

/-- **In a pattern that has been read every item has the property.** -/
theorem every_of_read {text : List Char} {p : Pattern} (h : Pattern.read limits text = .ok p) :
    Branches.Every (P p.groups) p.branches := by
  obtain ⟨-, r, hr, -, rfl⟩ := Pattern.read_eq_ok.1 h
  have hstart : (Reading.ofList text).Every P :=
    ⟨⟨by simp [Reading.ofList], by simp [Reading.ofList]⟩, by simp [Reading.ofList]⟩
  exact (hstart.toEnd hP hr).scope.body

end

theorem fits_invariant : Item.Invariant Item.Fits where
  mono hmn h := h.mono hmn
  plain {n item} h := match item, h with
    | .anchor _, _ => trivial
    | .atom (.test _) _, h => ⟨h.1, by rw [h.2]; simp⟩
    | .atom (.backref _) _, h => ⟨h.1, by rw [h.2]; simp⟩
  group hk _ := ⟨hk, by simp⟩
  quantified h hq := ⟨h.1, fun _ hx => by cases hx; exact hq⟩

/-- **In a pattern that has been read every item fits.** -/
theorem fits_of_read {text : List Char} {p : Pattern} (h : Pattern.read limits text = .ok p) :
    Branches.Every (Item.Fits p.groups) p.branches := every_of_read fits_invariant h

/-- A group of the item has at least one branch. -/
def Item.Filled : Item → Prop
  | .atom (.group _ branches) _ => branches ≠ []
  | _ => True

theorem filled_invariant : Item.Invariant fun _ => Item.Filled where
  mono _ h := h
  plain {_ item} h := match item, h with
    | .anchor _, _ => trivial
    | .atom (.test _) _, _ => trivial
    | .atom (.backref _) _, _ => trivial
  group _ hne := hne
  quantified {_ a _} h _ := match a, h with
    | .test _, _ => trivial
    | .backref _, _ => trivial
    | .group _ _, h => h

/-- **In a pattern that has been read every group has a branch**, and so has the whole pattern. -/
theorem filled_of_read {text : List Char} {p : Pattern} (h : Pattern.read limits text = .ok p) :
    Branches.Every Item.Filled p.branches ∧ p.branches ≠ [] := by
  refine ⟨every_of_read filled_invariant h, ?_⟩
  obtain ⟨-, r, -, -, rfl⟩ := Pattern.read_eq_ok.1 h
  exact r.scope.body_ne_nil

end

end PatternGraph
