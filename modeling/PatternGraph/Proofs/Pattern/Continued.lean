import PatternGraph.Proofs.Pattern.Within
import PatternGraph.Regex

/-!
# Patterns that go on

The reader does not look ahead further than it has to. A fault that does not come from the end of a
pattern is the first one of each longer pattern as well.

* `Cursor.followedBy`, `Reading.followedBy`: with more text behind;
* **`Reading.next_persists`**, **`Reading.toEnd_persists`**: one construct, all that is left;
* **`compile_append`**: whole patterns.
-/

namespace PatternGraph

/-! ## More text behind -/

/-- The cursor, with more text behind the one that it is in. -/
def Cursor.followedBy (more : List Char) (c : Cursor) : Cursor := ⟨c.rest ++ more, c.offset⟩

/-- The reading, with more text behind the one that it is of. -/
def Reading.followedBy (more : List Char) (r : Reading) : Reading :=
  { r with cursor := r.cursor.followedBy more }

theorem Cursor.within_zero (more : List Char) : Cursor.within more 0 = Cursor.followedBy more := by
  funext c
  rw [within, Nat.zero_add, followedBy]

theorem Persists.same {α : Type} {n : Nat} {done : α → Prop} {place : α → α} (e : Fault) :
    Persists n 0 done place (.error e) (.error e) := by
  have h : Persists n 0 done place (.error e) (.error (e.within 0)) := .error e
  rwa [Fault.within, Nat.zero_add] at h

namespace Reading

section

variable {limits : Limits} {c : Cursor} {r s : Reading} {n : Nat} (more : List Char)

theorem claim_persists (count : Nat) :
    Persists n 0 (·.cursor.rest = []) (followedBy more) (r.claim limits count c)
      ((r.followedBy more).claim limits count (c.followedBy more)) := by
  unfold claim followedBy
  dsimp only
  split
  · exact .ok { r with cursor := c, nodes := r.nodes + count }
  · exact .same _

theorem claim_persists_end {count : Nat} (hn : c.length = n) (hc : c.rest = [])
    (z : Except Fault Reading) :
    Persists n 0 (·.cursor.rest = []) (followedBy more) (r.claim limits count c) z := by
  unfold claim
  split
  · exact .done hc
  · refine .undecided fun (hlt : c.offset < n) => ?_
    rw [← hn, Cursor.length, hc] at hlt
    exact Nat.lt_irrefl _ hlt

theorem openGroup_persists :
    Persists n 0 (·.cursor.rest = []) (followedBy more) (r.openGroup limits c)
      ((r.followedBy more).openGroup limits (c.followedBy more)) := by
  show Persists n 0 _ _ (if r.opened.length < limits.nesting then _ else _)
    (if r.opened.length < limits.nesting then _ else _)
  split
  · exact claim_persists more 2
  · exact .same _

theorem closeGroup_persists :
    Persists n 0 (·.cursor.rest = []) (followedBy more) (r.closeGroup c)
      ((r.followedBy more).closeGroup (c.followedBy more)) := by
  unfold closeGroup
  dsimp only [followedBy]
  split
  · exact .same _
  · exact .ok _

theorem quantify_persists {quantifier quantifier' : Cursor → Except Fault (Quantifier × Cursor)}
    (hq : Persists n 0 (fun _ => False) (Prod.map id (Cursor.followedBy more)) (quantifier c)
      (quantifier' (c.followedBy more))) :
    Persists n 0 (·.cursor.rest = []) (followedBy more) (r.quantify limits quantifier c)
      ((r.followedBy more).quantify limits quantifier' (c.followedBy more)) := by
  unfold quantify
  dsimp only [followedBy]
  split
  · generalize quantifier c = x at hq ⊢
    generalize quantifier' (c.followedBy more) = y at hq ⊢
    cases hq with
    | ok a => exact claim_persists more _
    | error e => exact .error e
    | done h => exact h.elim
    | undecided h => exact .undecided h
  · exact .same _
  · exact .same _

theorem addBracket_persists (hn : c.length = n) :
    Persists n 0 (·.cursor.rest = []) (followedBy more) (r.addBracket limits c)
      ((r.followedBy more).addBracket limits (c.followedBy more)) := by
  have hbind : ∀ (r : Reading) c, r.addBracket limits c =
      (c.bracket r.cursor.offset).bind fun a => r.addAtom limits (.test (.oneOf a.1)) a.2 := by
    intro r c
    unfold addBracket
    cases c.bracket r.cursor.offset <;> rfl
  have hb := bracket_persists more 0 r.cursor.offset r.cursor.offset c
  rw [hn, Cursor.within_zero] at hb
  rw [hbind, hbind]
  exact hb.bind (fun a _ => claim_persists more 1) fun _ _ h => h.elim

theorem addBackref_persists (hn : c.length = n) :
    Persists n 0 (·.cursor.rest = []) (followedBy more) (r.addBackref limits c)
      ((r.followedBy more).addBackref limits (c.followedBy more)) := by
  have hbind : ∀ (r : Reading) c, r.addBackref limits c = c.number.bind fun a =>
      if a.1 ≤ r.groups then r.addAtom limits (.backref a.1) a.2
      else .error ⟨.undefinedBackref a.1, r.cursor.offset⟩ := by
    intro r c
    unfold addBackref
    cases c.number <;> rfl
  have hnumber := number_persists more 0 c
  rw [hn, Cursor.within_zero] at hnumber
  rw [hbind, hbind]
  refine hnumber.bind (fun a _ => ?_) fun a ha hend z => ?_
  · show Persists n 0 _ _ (if a.1 ≤ r.groups then _ else _) (if a.1 ≤ r.groups then _ else _)
    split
    · exact claim_persists more 1
    · exact .undecided id
  · split
    · exact claim_persists_end more ((Cursor.before_of_number ha).length_eq.trans hn) hend z
    · exact .undecided id

theorem addEscape_persists (hn : c.length = n) :
    Persists n 0 (·.cursor.rest = []) (followedBy more) (r.addEscape limits c)
      ((r.followedBy more).addEscape limits (c.followedBy more)) := by
  obtain ⟨_ | ⟨x, rest⟩, offset⟩ := c
  · exact .undecided id
  · show Persists n 0 _ _ (if x.isDigit then _ else _) (if x.isDigit then _ else _)
    split
    · exact addBackref_persists more hn
    · exact claim_persists more 1

variable (limits) in
/-- **One construct persists** if the text does not end behind it. -/
theorem next_persists (r : Reading) (x : Char) (hn : c.length = n) :
    Persists n 0 (·.cursor.rest = []) (followedBy more) (r.next limits x c)
      ((r.followedBy more).next limits x (c.followedBy more)) := by
  unfold next
  split
  · exact openGroup_persists more
  · exact closeGroup_persists more
  · exact .ok _
  · exact quantify_persists more (.ok (Quantifier.optional, c))
  · exact quantify_persists more (.ok (Quantifier.star, c))
  · exact quantify_persists more (.ok (Quantifier.plus, c))
  · refine quantify_persists more ?_
    have hq := counted_persists more 0 r.cursor.offset c
    rwa [hn, Cursor.within_zero, Nat.zero_add] at hq
  · exact claim_persists more 1
  · exact claim_persists more 1
  · exact claim_persists more 1
  · exact addBracket_persists more hn
  · exact addEscape_persists more hn
  · exact claim_persists more 1

end

/-- **All that is left persists**, as far as it has a fault. -/
theorem toEnd_persists (limits : Limits) (r : Reading) {n : Nat} (more : List Char)
    (hr : r.cursor.length = n) : Persists n 0 (fun _ => True) (followedBy more) (r.toEnd limits)
      ((r.followedBy more).toEnd limits) := by
  -- the longer text goes on with the same construct, and the text may end behind it
  have hnext : ∀ {r : Reading} {x : Char} {rest : List Char}, r.cursor.length = n →
      r.cursor.rest = x :: rest → (∀ s, r.next limits x ⟨rest, r.cursor.offset + 1⟩ = .ok s →
        Persists n 0 (fun _ => True) (followedBy more) (s.toEnd limits)
          ((s.followedBy more).toEnd limits)) →
      Persists n 0 (fun _ => True) (followedBy more)
        ((r.next limits x ⟨rest, r.cursor.offset + 1⟩).bind (toEnd limits))
        ((r.followedBy more).toEnd limits) := by
    intro r x rest hr hc hok
    have hlonger : (r.followedBy more).cursor.rest = x :: (rest ++ more) := by
      rw [followedBy, Cursor.followedBy, hc, List.cons_append]
    rw [toEnd_of_next limits hlonger]
    refine (next_persists limits more r x ((Cursor.before_of_rest hc).length_eq.trans hr)).bind hok
      fun s _ hend z => ?_
    rw [toEnd_of_nil limits hend]
    exact .done trivial
  fun_induction Reading.toEnd limits r with
  | case1 => exact .done trivial
  | case2 r x rest hc e hn =>
    have h := hnext hr hc
    rw [hn] at h
    exact h nofun
  | case3 r x rest hc s hn ih =>
    have h := hnext hr hc
    rw [hn] at h
    refine h fun s' hs => ?_
    cases hs
    refine ih ?_
    have hbefore := (Cursor.before_of_rest hc).length_eq.trans hr
    exact (reaches_of_next hn).elim (fun h => (congrArg Cursor.length h).trans hbefore)
      fun h => h.length_eq.trans hbefore

end Reading

/-! ## Whole patterns -/

theorem read_append {limits : Limits} {text : List Char} {e : Fault} (more : List Char)
    (h : Pattern.read limits text = .error e) (hd : e.Decided text.length) :
    Pattern.read limits (text ++ more) = .error e := by
  unfold Pattern.read at h ⊢
  split at h
  · next hlt =>
    rw [if_pos hlt]
    exact h
  · next hle =>
    rw [if_neg hle]
    split at h
    · next hr =>
      cases h
      have hlonger :=
        (Reading.toEnd_persists limits (.ofList text) more (Nat.zero_add _)).eq_error hr hd
      rw [Fault.within, Nat.zero_add] at hlonger
      have hmore : Reading.ofList (text ++ more) = (Reading.ofList text).followedBy more := rfl
      rw [hmore, hlonger]
    · next r _ =>
      -- that a group is not closed is not decided
      unfold Reading.finish at h
      split at h
      · cases h
      · cases h
        exact hd.elim

/-- **The first error is reported, whatever follows it**, unless it comes from the end of the
pattern. -/
theorem compile_append {limits : Limits} {pattern : String} {e : PatternError} (more : String)
    (h : compile limits pattern = .error e) (hd : e.toFault.Decided pattern.length) :
    compile limits (pattern ++ more) = .error ⟨e.toFault, pattern ++ more⟩ := by
  unfold compile at h ⊢
  split at h
  · next fault hread =>
    cases h
    rw [String.toList_append, read_append more.toList hread (String.length_toList ▸ hd)]
  · cases h

/-- A hyphen that is in the way, with a character behind it. -/
theorem compile_append_hyphen : Fault.Decided "[a-c-e".length ⟨.strayHyphen, 4⟩ ∧
    compile {} ("[a-c-e" ++ "]") = .error ⟨⟨.strayHyphen, 4⟩, "[a-c-e" ++ "]"⟩ := by
  have hdecided : Fault.Decided "[a-c-e".length ⟨.strayHyphen, 4⟩ := by
    show 4 + 1 < "[a-c-e".length
    decide
  have h : compile {} "[a-c-e" = .error ⟨⟨.strayHyphen, 4⟩, "[a-c-e"⟩ := by with_unfolding_all rfl
  exact ⟨hdecided, compile_append "]" h hdecided⟩

end PatternGraph
