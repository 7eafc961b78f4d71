import PatternGraph.Graph.Basic

/-!
# The graph of a pattern

Nodes are laid out in the order of the text. A group takes two nodes ahead of its body, where it
opens and where it closes; a quantifier takes a join behind its atom, and if it counts one more
node for the passes. Since indices follow from the number of nodes in front, the successors of a
node are known when it is added.

* `Atom.after`, `Branch.after`, `Branches.after`: the first index behind a part that begins at a
  given one;
* `entry`: the successors that lead into a branch, `heads` into one branch after the other;
* `layoutAtom`, `layoutBranch`, `layoutBranches`: the nodes themselves;
* `Graph.ofPattern`: a whole pattern.
-/

namespace PatternGraph

/-! ## Indices -/

mutual

/-- The first index behind an atom that begins at index `n`. -/
def Atom.after : Atom → Nat → Nat
  | .test _, n => n + 1
  | .backref _, n => n + 1
  | .group _ branches, n => Branches.after branches (n + 2)

/-- The first index behind branches that begin at index `n`. -/
def Branches.after : List (List Item) → Nat → Nat
  | [], n => n
  | b :: bs, n => Branches.after bs (Branch.after b n)

/-- The first index behind a branch that begins at index `n`. -/
def Branch.after : List Item → Nat → Nat
  | [], n => n
  | .anchor _ :: rest, n => Branch.after rest (n + 1)
  | .atom a none :: rest, n => Branch.after rest (a.after n)
  | .atom a (some q) :: rest, n => Branch.after rest (a.after n + q.nodes)

end

/-! ## Successors -/

/-- The successors that lead into a branch whose nodes begin at index `n`, inside a scope that
closes at `close`. If the first atom may be skipped, a second way leads right behind it. -/
def entry (close : Nat) : Branch → Nat → List Nat
  | [], _ => [close]
  | .atom a (some q) :: _, n => if q.skips then [n, a.after n] else [n]
  | _, n => [n]

/-- The successors that lead into branches whose nodes begin at index `n`. -/
def heads (close : Nat) (branches : Branches) (n : Nat) : List Nat :=
  (branches.foldl (fun (edges, n) b => (edges ++ entry close b n, Branch.after b n))
    ((#[] : Array Nat), n)).1.toList

/-- The successors of the last node of an atom that begins at index `n` and is quantified by `q`,
the nodes of which begin at index `m`. -/
def Quantifier.onward (n m : Nat) : Quantifier → List Nat
  | .optional => [m]
  | .star | .plus => [n, m]
  | .counted _ => [m + 1]

/-- The nodes of a quantifier that begin at index `m`, where the atom begins at index `n` and what
follows is entered by `following`. -/
def Quantifier.layout (n m : Nat) (following : List Nat) : Quantifier → List Node
  | .counted bounds => [⟨.join, following⟩, ⟨.repetition bounds m, [n]⟩]
  | _ => [⟨.join, following⟩]

/-! ## Nodes -/

mutual

/-- Adds the nodes of an atom, the last of which has the successors `onward`. -/
def layoutAtom (onward : List Nat) : Atom → Array Node → Array Node
  | .test t, nodes => nodes.push ⟨.test t, onward⟩
  | .backref group, nodes => nodes.push ⟨.backref group, onward⟩
  | .group number branches, nodes =>
    layoutBranches (nodes.size + 1) branches
      ((nodes.push ⟨.groupOpen number, heads (nodes.size + 1) branches (nodes.size + 2)⟩).push
        ⟨.groupClose number, onward⟩)

/-- Adds the nodes of branches in a scope that closes at `close`. -/
def layoutBranches (close : Nat) : List (List Item) → Array Node → Array Node
  | [], nodes => nodes
  | b :: bs, nodes => layoutBranches close bs (layoutBranch close b nodes)

/-- Adds the nodes of a branch in a scope that closes at `close`. -/
def layoutBranch (close : Nat) : List Item → Array Node → Array Node
  | [], nodes => nodes
  | .anchor a :: rest, nodes =>
    layoutBranch close rest (nodes.push ⟨.anchor a, entry close rest (nodes.size + 1)⟩)
  | .atom a none :: rest, nodes =>
    layoutBranch close rest (layoutAtom (entry close rest (a.after nodes.size)) a nodes)
  | .atom a (some q) :: rest, nodes =>
    let n := nodes.size
    let m := a.after n
    layoutBranch close rest
      (layoutAtom (q.onward n m) a nodes ++ q.layout n m (entry close rest (m + q.nodes)))

end

/-- The graph of a pattern: a scope that opens at index 0 and closes at index 1. -/
def Graph.ofPattern (p : Pattern) : Graph where
  nodes := layoutBranches 1 p.branches
    #[⟨.groupOpen 0, heads 1 p.branches 2⟩, ⟨.terminal, []⟩]
  start := 0
  terminal := 1
  groups := p.groups

/-- The graph of `a*`: the loop comes before the way out. -/
example : (Graph.ofPattern ⟨[[.atom (.test (.literal 'a')) (some .star)]], 0⟩).nodes =
    #[⟨.groupOpen 0, [2, 3]⟩, ⟨.terminal, []⟩, ⟨.test (.literal 'a'), [2, 3]⟩, ⟨.join, [1]⟩] := by
  decide

end PatternGraph
