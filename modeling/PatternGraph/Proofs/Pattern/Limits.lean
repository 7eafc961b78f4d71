import PatternGraph.Proofs.Graph.Wired
import PatternGraph.Proofs.Pattern.Acceptance

/-!
# What limits cut off

Limits say where reading stops, and nothing else. The same pattern is read under tighter and under
looser limits in step; the two readings part only where the tighter one comes to a limit, and from
there on the looser one has more nodes than that or more groups open.

* `Branches.nodes`, `Branches.depth`: how many nodes a tree takes, how deep its groups are nested;
  **`size_ofPattern`**: the size of a graph, told by the tree;
* `Reading.peak`: how many groups have been open at once so far, **`Grows.peak_eq`**;
* `Cut`: how a reading under tighter limits differs, **`next_cut`**, **`toEnd_cut`**: one construct,
  all that is left;
* **`compile_of_tighter`**: whole patterns.
-/

namespace PatternGraph

/-! ## Nodes and depth -/

mutual

/-- How many nodes an atom takes: one, or two for a group and those of its branches. -/
def Atom.nodes : Atom → Nat
  | .test _ => 1
  | .backref _ => 1
  | .group _ branches => 2 + Branches.nodes branches

/-- How many nodes branches take. -/
def Branches.nodes : List (List Item) → Nat
  | [] => 0
  | b :: bs => Branch.nodes b + Branches.nodes bs

/-- How many nodes a branch takes: one for an anchor, and those of its atoms and quantifiers. -/
def Branch.nodes : List Item → Nat
  | [] => 0
  | .anchor _ :: rest => 1 + Branch.nodes rest
  | .atom a none :: rest => a.nodes + Branch.nodes rest
  | .atom a (some q) :: rest => a.nodes + q.nodes + Branch.nodes rest

end

mutual

/-- How deep groups are nested in an atom. -/
def Atom.depth : Atom → Nat
  | .test _ => 0
  | .backref _ => 0
  | .group _ branches => Branches.depth branches + 1

/-- How deep groups are nested in branches. -/
def Branches.depth : List (List Item) → Nat
  | [] => 0
  | b :: bs => max (Branch.depth b) (Branches.depth bs)

/-- How deep groups are nested in a branch. -/
def Branch.depth : List Item → Nat
  | [] => 0
  | .anchor _ :: rest => Branch.depth rest
  | .atom a _ :: rest => max a.depth (Branch.depth rest)

end

mutual

theorem Atom.after_eq_add : ∀ (a : Atom) (n : Nat), a.after n = n + a.nodes
  | .test _, _ => rfl
  | .backref _, _ => rfl
  | .group _ bs, n => by rw [Atom.after, Atom.nodes, Branches.after_eq_add bs, Nat.add_assoc]

theorem Branches.after_eq_add : ∀ (bs : List (List Item)) (n : Nat),
    Branches.after bs n = n + Branches.nodes bs
  | [], _ => rfl
  | b :: bs, n => by
    rw [Branches.after, Branches.nodes, Branch.after_eq_add b, Branches.after_eq_add bs,
      Nat.add_assoc]

theorem Branch.after_eq_add : ∀ (b : List Item) (n : Nat), Branch.after b n = n + Branch.nodes b
  | [], _ => rfl
  | .anchor _ :: rest, n => by
    rw [Branch.after, Branch.nodes, Branch.after_eq_add rest, Nat.add_assoc]
  | .atom a none :: rest, n => by
    rw [Branch.after, Branch.nodes, Atom.after_eq_add a, Branch.after_eq_add rest, Nat.add_assoc]
  | .atom a (some q) :: rest, n => by
    rw [Branch.after, Branch.nodes, Atom.after_eq_add a, Branch.after_eq_add rest]
    omega

end

/-- **A graph has two nodes and those that its pattern takes.** -/
theorem size_ofPattern (p : Pattern) : (Graph.ofPattern p).size = 2 + Branches.nodes p.branches :=
  (size_layoutBranches 1 p.branches _).trans (Branches.after_eq_add p.branches 2)

theorem Branch.depth_append (b b' : Branch) :
    Branch.depth (b ++ b') = max (Branch.depth b) (Branch.depth b') := by
  induction b with
  | nil => exact (Nat.zero_max _).symm
  | cons item b ih =>
    cases item with
    | anchor x => exact ih
    | atom a q => rw [List.cons_append, Branch.depth, Branch.depth, ih, Nat.max_assoc]

theorem Branches.depth_append (bs bs' : Branches) :
    Branches.depth (bs ++ bs') = max (Branches.depth bs) (Branches.depth bs') := by
  induction bs with
  | nil => exact (Nat.zero_max _).symm
  | cons b bs ih => rw [List.cons_append, Branches.depth, Branches.depth, ih, Nat.max_assoc]

theorem Branch.depth_reverse (b : Branch) : Branch.depth b.reverse = Branch.depth b := by
  induction b with
  | nil => rfl
  | cons item b ih =>
    rw [List.reverse_cons, Branch.depth_append, ih, Nat.max_comm, ← Branch.depth_append]
    rfl

theorem Branches.depth_reverse (bs : Branches) : Branches.depth bs.reverse = Branches.depth bs := by
  induction bs with
  | nil => rfl
  | cons b bs ih =>
    rw [List.reverse_cons, Branches.depth_append, ih, Nat.max_comm, ← Branches.depth_append]
    rfl

/-- How deep groups are nested in a scope, as far as it has been read. -/
def Scope.depth (s : Scope) : Nat := Branches.depth s.body

theorem Scope.depth_eq (s : Scope) :
    s.depth = max (Branch.depth s.items) (Branches.depth s.branches) := by
  rw [depth, body, Branches.depth_reverse, bar, Branches.depth, Branch.depth_reverse]

theorem Scope.depth_add_atom (s : Scope) (a : Atom) (q : Option Quantifier) :
    (s.add (.atom a q)).depth = max a.depth s.depth := by
  rw [depth_eq, depth_eq, add, Branch.depth, Nat.max_assoc]

/-! ## How many groups have been open at once -/

/-- How deep groups are nested in the scopes around the open groups. -/
def OpenGroup.depth : List OpenGroup → Nat
  | [] => 0
  | g :: opened => max (opened.length + g.outer.depth) (OpenGroup.depth opened)

/-- How many groups have been open at once, at most, in what has been read. -/
def Reading.peak (r : Reading) : Nat :=
  max (r.opened.length + r.scope.depth) (OpenGroup.depth r.opened)

section

variable {limits limits' : Limits} {c : Cursor} {r s t : Reading}

theorem Reading.length_opened_le_peak (r : Reading) : r.opened.length ≤ r.peak :=
  Nat.le_trans (Nat.le_add_right _ _) (Nat.le_max_left _ _)

/-- **A construct that opens a group may raise the peak, all others leave it as it is.** -/
theorem Reading.Grows.peak_eq (h : r.Grows s) : s.peak = max r.peak s.opened.length := by
  have hle := r.length_opened_le_peak
  -- a construct that leaves the depth of the innermost scope as it is
  have hsame : ∀ {t : Reading}, t.opened = r.opened → t.scope.depth = r.scope.depth →
      t.peak = max r.peak t.opened.length := by
    intro t ho hd
    rw [Reading.peak, Reading.peak, ho, hd]
    rw [Reading.peak] at hle
    omega
  cases h with
  | item c item hi =>
    refine hsame rfl ?_
    match item, hi with
    | .anchor _, _ => rw [Scope.depth_eq, Scope.depth_eq]; rfl
    | .atom (.test _) _, _ => exact (r.scope.depth_add_atom _ _).trans (Nat.zero_max _)
    | .atom (.backref _) _, _ => exact (r.scope.depth_add_atom _ _).trans (Nat.zero_max _)
  | opens c =>
    have hempty : Scope.depth {} = 0 := rfl
    show max (r.opened.length + 1 + Scope.depth {})
      (max (r.opened.length + r.scope.depth) (OpenGroup.depth r.opened)) =
        max (max (r.opened.length + r.scope.depth) (OpenGroup.depth r.opened)) (r.opened.length + 1)
    rw [hempty]
    exact Nat.max_comm _ _
  | closes c g opened ho =>
    have hgroup : (Atom.group g.number r.scope.body).depth = r.scope.depth + 1 := rfl
    show max (opened.length + (g.outer.add _).depth) (OpenGroup.depth opened) =
      max (max (r.opened.length + r.scope.depth) (OpenGroup.depth r.opened)) opened.length
    rw [ho, Scope.depth_add_atom, hgroup, OpenGroup.depth, List.length_cons]
    omega
  | bar c =>
    refine hsame rfl ?_
    rw [Scope.depth_eq, Scope.depth_eq, Scope.bar, Branch.depth, Branches.depth,
      Branch.depth_reverse, Nat.zero_max]
  | quantified c a items q hi _ =>
    refine hsame rfl ?_
    rw [Scope.depth_eq, Scope.depth_eq, hi]
    rfl

theorem Reading.Grows.le_nodes (h : r.Grows s) : r.nodes ≤ s.nodes := by
  cases h with
  | item | opens | quantified => exact Nat.le_add_right _ _
  | closes | bar => exact Nat.le_refl _

theorem Reading.le_of_toEnd (h : r.toEnd limits = .ok t) : r.nodes ≤ t.nodes ∧ r.peak ≤ t.peak := by
  fun_induction Reading.toEnd limits r with
  | case1 => cases h; exact ⟨Nat.le_refl _, Nat.le_refl _⟩
  | case2 => cases h
  | case3 r x rest _ s hn ih =>
    have hgrows := grows_of_next hn
    obtain ⟨hnodes, hpeak⟩ := ih h
    rw [hgrows.peak_eq] at hpeak
    exact ⟨Nat.le_trans hgrows.le_nodes hnodes, Nat.le_trans (Nat.le_max_left _ _) hpeak⟩

/-! ## Readings under two limits -/

/-- The cause is that one of these limits has been come to. -/
def Limits.Stop (limits : Limits) (cause : Cause) : Prop :=
  cause = .nestingLimit limits.nesting ∨ cause = .nodeLimit limits.nodes

/-- What is read under limits, the first result, and under looser ones. Both end in the same fault,
or both succeed within the limits. Or the first one comes to a limit, and the second one goes beyond
that if it succeeds, where groups are counted by `depth`. -/
inductive Cut (limits : Limits) (depth : Reading → Nat) :
    Except Fault Reading → Except Fault Reading → Prop
  | error (e : Fault) : Cut limits depth (.error e) (.error e)
  | ok {s : Reading} : s.nodes ≤ limits.nodes → depth s ≤ limits.nesting →
    Cut limits depth (.ok s) (.ok s)
  | nodes {offset : Nat} {y : Except Fault Reading} : (∀ s, y = .ok s → limits.nodes < s.nodes) →
    Cut limits depth (.error ⟨.nodeLimit limits.nodes, offset⟩) y
  | nesting {offset : Nat} {y : Except Fault Reading} :
    (∀ s, y = .ok s → limits.nesting < depth s) →
    Cut limits depth (.error ⟨.nestingLimit limits.nesting, offset⟩) y

namespace Reading

variable (hnodes : limits.nodes ≤ limits'.nodes)

include hnodes

theorem claim_cut {count : Nat} (hr : r.opened.length ≤ limits.nesting) :
    Cut limits (·.opened.length) (r.claim limits count c) (r.claim limits' count c) := by
  rw [claim, claim]
  by_cases h : r.nodes + count ≤ limits.nodes
  · rw [if_pos h, if_pos (Nat.le_trans h hnodes)]
    exact .ok h hr
  · rw [if_neg h]
    refine .nodes fun s hs => ?_
    obtain ⟨-, rfl⟩ := claim_eq_ok.1 hs
    exact Nat.lt_of_not_le h

theorem openGroup_cut (hnesting : limits.nesting ≤ limits'.nesting) :
    Cut limits (·.opened.length) (r.openGroup limits c) (r.openGroup limits' c) := by
  by_cases h : r.opened.length < limits.nesting
  · rw [openGroup, openGroup, if_pos h, if_pos (Nat.lt_of_lt_of_le h hnesting)]
    exact claim_cut hnodes h
  · rw [openGroup, if_neg h]
    refine .nesting fun s hs => ?_
    obtain ⟨-, -, rfl⟩ := openGroup_eq_ok.1 hs
    exact Nat.lt_succ_of_le (Nat.le_of_not_lt h)

variable (hr : r.opened.length ≤ limits.nesting)

include hr

theorem quantify_cut (quantifier : Cursor → Except Fault (Quantifier × Cursor)) :
    Cut limits (·.opened.length) (r.quantify limits quantifier c)
      (r.quantify limits' quantifier c) := by
  unfold quantify
  split
  · split
    · exact .error _
    · exact claim_cut hnodes hr
  · exact .error _
  · exact .error _

theorem addBracket_cut :
    Cut limits (·.opened.length) (r.addBracket limits c) (r.addBracket limits' c) := by
  unfold addBracket
  split
  · exact .error _
  · exact claim_cut hnodes hr

theorem addEscape_cut :
    Cut limits (·.opened.length) (r.addEscape limits c) (r.addEscape limits' c) := by
  unfold addEscape addBackref
  split
  · exact .error _
  · split
    · split
      · exact .error _
      · split
        · exact claim_cut hnodes hr
        · exact .error _
    · exact claim_cut hnodes hr

/-- **One construct under two limits.** -/
theorem next_cut (hnesting : limits.nesting ≤ limits'.nesting) (hn : r.nodes ≤ limits.nodes)
    (x : Char) : Cut limits (·.opened.length) (r.next limits x c) (r.next limits' x c) := by
  unfold next
  split
  · exact openGroup_cut hnodes hnesting
  · unfold closeGroup
    split
    · exact .error _
    · next g opened ho =>
      rw [ho] at hr
      exact .ok hn (Nat.le_of_succ_le hr)
  · exact .ok hn hr
  · exact quantify_cut hnodes hr _
  · exact quantify_cut hnodes hr _
  · exact quantify_cut hnodes hr _
  · exact quantify_cut hnodes hr _
  · exact claim_cut hnodes hr
  · exact claim_cut hnodes hr
  · exact claim_cut hnodes hr
  · exact addBracket_cut hnodes hr
  · exact addEscape_cut hnodes hr
  · exact claim_cut hnodes hr

end Reading

/-- Where the looser reading goes on it only takes more. -/
theorem Cut.bind {x y : Except Fault Reading} (h : Cut limits (·.opened.length) x y)
    (hok : ∀ s, x = .ok s → s.nodes ≤ limits.nodes → s.opened.length ≤ limits.nesting →
      Cut limits Reading.peak (s.toEnd limits) (s.toEnd limits')) :
    Cut limits Reading.peak (x.bind (Reading.toEnd limits)) (y.bind (Reading.toEnd limits')) := by
  have hgo : ∀ {t}, y.bind (Reading.toEnd limits') = .ok t →
      ∃ s, y = .ok s ∧ s.nodes ≤ t.nodes ∧ s.opened.length ≤ t.peak := by
    intro t ht
    cases y with
    | error e => cases ht
    | ok s =>
      obtain ⟨hnodes, hpeak⟩ := Reading.le_of_toEnd ht
      exact ⟨s, rfl, hnodes, Nat.le_trans s.length_opened_le_peak hpeak⟩
  cases h with
  | error e => exact .error e
  | ok hn ho => exact hok _ rfl hn ho
  | nodes h =>
    refine .nodes fun t ht => ?_
    obtain ⟨s, hs, hle, -⟩ := hgo ht
    exact Nat.lt_of_lt_of_le (h s hs) hle
  | nesting h =>
    refine .nesting fun t ht => ?_
    obtain ⟨s, hs, -, hle⟩ := hgo ht
    exact Nat.lt_of_lt_of_le (h s hs) hle

/-- **All that is left to read under two limits.** -/
theorem Reading.toEnd_cut (hnodes : limits.nodes ≤ limits'.nodes)
    (hnesting : limits.nesting ≤ limits'.nesting) (hn : r.nodes ≤ limits.nodes)
    (hp : r.peak ≤ limits.nesting) :
    Cut limits peak (r.toEnd limits) (r.toEnd limits') := by
  fun_induction Reading.toEnd limits r with
  | case1 r hc =>
    rw [toEnd_of_nil limits' hc]
    exact .ok hn hp
  | case2 r x rest hc e he =>
    have hcut := next_cut (c := ⟨rest, r.cursor.offset + 1⟩) hnodes
      (Nat.le_trans r.length_opened_le_peak hp) hnesting hn x
    rw [he] at hcut
    rw [toEnd_of_next limits' hc]
    exact hcut.bind fun s hs => by cases hs
  | case3 r x rest hc s hs ih =>
    have hcut := next_cut (c := ⟨rest, r.cursor.offset + 1⟩) hnodes
      (Nat.le_trans r.length_opened_le_peak hp) hnesting hn x
    rw [hs] at hcut
    rw [toEnd_of_next limits' hc]
    refine hcut.bind fun s' hs' hn' ho => ?_
    cases hs'
    refine ih hn' ?_
    rw [(grows_of_next hs).peak_eq]
    exact Nat.max_le.2 ⟨hp, ho⟩

theorem Reading.nodes_eq_size {text : List Char} (h : (ofList text).toEnd limits = .ok r)
    (ho : r.opened = []) : r.nodes = (Graph.ofPattern ⟨r.scope.body, r.groups⟩).size := by
  have hfollows : Follows ((ofList text).toEnd limits) _ :=
    follows_toEnd (holds_ofList text) (Nat.le_refl _)
  rw [h] at hfollows
  rcases hfollows.cases with ⟨f, hr, -⟩ | ⟨s, ns, hr, -, hholds⟩
  · cases hr
  · cases hr
    have hsize := hholds.size
    rw [ho] at hsize
    rw [hholds.count, hsize, size_ofPattern, ← Branches.after_eq_add]
    exact (r.scope.after_body 0).symm

theorem Reading.peak_eq_depth (ho : r.opened = []) : r.peak = Branches.depth r.scope.body := by
  rw [peak, ho]
  show max (0 + Branches.depth r.scope.body) 0 = _
  rw [Nat.zero_add, Nat.max_zero]

/-! ## Whole patterns -/

/-- The graph of the pattern and its groups keep within the limits. -/
def Pattern.Within (limits : Limits) (p : Pattern) : Prop :=
  (Graph.ofPattern p).size ≤ limits.nodes ∧ Branches.depth p.branches ≤ limits.nesting

/-- **A pattern is read under tighter limits as it is under looser ones**, and then it keeps within
them; or it comes to one of them, and then it does not. -/
theorem read_cut (hnodes : limits.nodes ≤ limits'.nodes)
    (hnesting : limits.nesting ≤ limits'.nesting) (text : List Char) :
    (Pattern.read limits text = Pattern.read limits' text ∧
      ∀ p, Pattern.read limits' text = .ok p → p.Within limits) ∨
    ∃ e, Pattern.read limits text = .error e ∧ limits.Stop e.cause ∧
      ∀ p, Pattern.read limits' text = .ok p → ¬ p.Within limits := by
  by_cases htwo : limits.nodes < 2
  · refine .inr ⟨_, if_pos htwo, .inr rfl, fun p _ hp => ?_⟩
    have := hp.1
    rw [size_ofPattern] at this
    omega
  have hread : ∀ {l : Limits}, ¬ l.nodes < 2 → Pattern.read l text =
      ((Reading.ofList text).toEnd l).bind Reading.finish := by
    intro l hl
    rw [Pattern.read, if_neg hl]
    cases (Reading.ofList text).toEnd l <;> rfl
  -- what a pattern that has been read takes is what its reading has taken
  have hfinish : ∀ {l : Limits} {r : Reading} {p : Pattern}, (Reading.ofList text).toEnd l = .ok r →
      r.finish = .ok p →
        (Graph.ofPattern p).size = r.nodes ∧ Branches.depth p.branches = r.peak := by
    intro l r p hr hp
    obtain ⟨ho, rfl⟩ := Reading.finish_eq_ok.1 hp
    exact ⟨(Reading.nodes_eq_size hr ho).symm, (Reading.peak_eq_depth ho).symm⟩
  have hcut := (Reading.ofList text).toEnd_cut hnodes hnesting (Nat.le_of_not_lt htwo)
    (Nat.zero_le _)
  rw [hread htwo, hread (by omega : ¬ limits'.nodes < 2)]
  generalize hx : (Reading.ofList text).toEnd limits = x at hcut
  generalize hy : (Reading.ofList text).toEnd limits' = y at hcut
  -- what the looser reading takes, if the pattern is read to its end
  have hbeyond : ∀ {p : Pattern}, y.bind Reading.finish = .ok p → p.Within limits →
      ∃ s, y = .ok s ∧ s.nodes ≤ limits.nodes ∧ s.peak ≤ limits.nesting := by
    intro p hp hwithin
    cases y with
    | error e => cases hp
    | ok s =>
      obtain ⟨hsize, hdepth⟩ := hfinish hy hp
      exact ⟨s, rfl, hsize ▸ hwithin.1, hdepth ▸ hwithin.2⟩
  cases hcut with
  | error e => exact .inl ⟨rfl, fun p hp => by cases hp⟩
  | @ok r hn hd =>
    refine .inl ⟨rfl, fun p hp => ?_⟩
    obtain ⟨hsize, hdepth⟩ := hfinish hx hp
    exact ⟨hsize ▸ hn, hdepth ▸ hd⟩
  | nodes h =>
    refine .inr ⟨_, rfl, .inr rfl, fun p hp hwithin => ?_⟩
    obtain ⟨s, hs, hn, -⟩ := hbeyond hp hwithin
    exact Nat.not_le_of_lt (h s hs) hn
  | nesting h =>
    refine .inr ⟨_, rfl, .inl rfl, fun p hp hwithin => ?_⟩
    obtain ⟨s, hs, -, hd⟩ := hbeyond hp hwithin
    exact Nat.not_le_of_lt (h s hs) hd

/-- **Tighter limits only cut off, and by size and depth alone.** What is compiled under them is
compiled under looser ones, into the same graph. What is compiled under the looser ones is compiled
under the tighter ones if its graph and its groups keep within them, and comes to one of them if
not. A pattern that is refused for another reason under the looser ones is refused for the same one,
or comes to one of the tighter limits. -/
theorem compile_of_tighter (hnodes : limits.nodes ≤ limits'.nodes)
    (hnesting : limits.nesting ≤ limits'.nesting) (pattern : String) :
    (∀ g, compile limits pattern = .ok g → compile limits' pattern = .ok g) ∧
    (∀ g, compile limits' pattern = .ok g →
      ∃ p, Pattern.read limits' pattern.toList = .ok p ∧ g.size = 2 + Branches.nodes p.branches ∧
        (compile limits pattern = .ok g ↔
          g.size ≤ limits.nodes ∧ Branches.depth p.branches ≤ limits.nesting) ∧
        (¬ (g.size ≤ limits.nodes ∧ Branches.depth p.branches ≤ limits.nesting) →
          ∃ e, compile limits pattern = .error e ∧ limits.Stop e.cause)) ∧
    ∀ e, compile limits' pattern = .error e → ¬ e.cause.IsLimit →
      compile limits pattern = .error e ∨
        ∃ e', compile limits pattern = .error e' ∧ limits.Stop e'.cause := by
  rcases read_cut hnodes hnesting pattern.toList with ⟨heq, hwithin⟩ | ⟨e, he, hstop, hbeyond⟩
  · have hcompile : compile limits pattern = compile limits' pattern := by
      rw [compile, compile, heq]
    refine ⟨fun g hg => hcompile ▸ hg, fun g hg => ?_, fun e he _ => .inl (hcompile ▸ he)⟩
    obtain ⟨p, hp, rfl⟩ := exists_read_of_compile hg
    exact ⟨p, hp, size_ofPattern p, iff_of_true (hcompile ▸ hg) (hwithin p hp),
      fun h => absurd (hwithin p hp) h⟩
  · have hcompile : compile limits pattern = .error ⟨e, pattern⟩ := by rw [compile, he]
    refine ⟨fun g hg => ?_, fun g hg => ?_, fun _ _ _ => .inr ⟨_, hcompile, hstop⟩⟩
    · rw [hcompile] at hg
      cases hg
    · obtain ⟨p, hp, rfl⟩ := exists_read_of_compile hg
      refine ⟨p, hp, size_ofPattern p, iff_of_false (fun h => ?_) (hbeyond p hp),
        fun _ => ⟨_, hcompile, hstop⟩⟩
      rw [hcompile] at h
      cases h

/-- Twelve nodes and two groups at once are all that this pattern takes, and one group is not enough
for it. -/
theorem compile_of_tighter_nested : (∃ g, compile ⟨2, 12⟩ "(a(b)|c{2})*" = .ok g ∧ g.size = 12) ∧
    ∃ e, compile ⟨1, 12⟩ "(a(b)|c{2})*" = .error e ∧ Limits.Stop ⟨1, 12⟩ e.cause := by
  have hdepth : (Pattern.read {} "(a(b)|c{2})*".toList).toOption.map
      (fun p => (Branches.nodes p.branches, Branches.depth p.branches)) = some (10, 2) := by
    decide +kernel
  have hg : (compile {} "(a(b)|c{2})*").isOk := by decide +kernel
  cases hcompile : compile {} "(a(b)|c{2})*" with
  | error e => rw [hcompile] at hg; cases hg
  | ok g =>
    obtain ⟨-, h, -⟩ := @compile_of_tighter ⟨2, 12⟩ {} (by decide) (by decide) "(a(b)|c{2})*"
    obtain ⟨-, h', -⟩ := @compile_of_tighter ⟨1, 12⟩ {} (by decide) (by decide) "(a(b)|c{2})*"
    obtain ⟨p, hp, hsize, hiff, -⟩ := h g hcompile
    obtain ⟨p', hp', -, -, hstop⟩ := h' g hcompile
    rw [hp] at hdepth hp'
    cases hp'
    obtain ⟨hnodes, hnested⟩ := Prod.mk.inj (Option.some.inj hdepth)
    rw [hnodes] at hsize
    refine ⟨⟨g, hiff.2 ⟨Nat.le_of_eq hsize, Nat.le_of_eq hnested⟩, hsize⟩, hstop fun hle => ?_⟩
    exact absurd (hnested ▸ hle.2) (by decide : ¬ 2 ≤ 1)

end

end PatternGraph
