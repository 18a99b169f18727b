import P4LS.Library.PositionAutomaton

/-!
# The syntax tree of the lexer generator

The nodes that the regular expressions of the tokens are parsed into, with the functions that
`create_dfa` computes its automaton from.  A `node_set` is a finite set of node numbers and a row
of a `state_match_t` has a flag for each character.  Cloning a node copies its value.

A tree whose nodes are numbered is a regular expression over the numbers (`Node.expr`), and its
sets are those of the library.  Numbering gives every leaf a number of its own, so the words of
the expression, read with the flags that `compute_state_match` sets, are the texts of the tree.

A node number is an `unsigned int`, so a tree with 2^32 leaves or more is out of reach of the
program.
-/

namespace P4LS.Slex

inductive Node where
  | charNode (char : UInt8) (nodeNum : ℕ)
  | epsilonNode (nodeNum : ℕ)
  | orNode (left right : Node)
  | catNode (left right : Node)
  | starNode (left : Node)
  | eofNode (nodeNum : ℕ)
  | cclNode (flags : Vector Bool 256) (nodeNum : ℕ)
  deriving DecidableEq

abbrev NodeSet := Finset ℕ

abbrev Followpos := ℕ → NodeSet

abbrev StateMatch := List (List Bool)

/-- `std::vector::resize`: new elements are copies of `x`. -/
def resize {α : Type} (xs : List α) (n : ℕ) (x : α) : List α :=
  xs.take n ++ List.replicate (n - xs.length) x

namespace Node

def nullable : Node → Bool
  | charNode _ _ => false
  | epsilonNode _ => true
  | orNode left right => left.nullable || right.nullable
  | catNode left right => left.nullable && right.nullable
  | starNode _ => true
  | eofNode _ => false
  | cclNode _ _ => false

def firstpos : Node → NodeSet
  | charNode _ nodeNum => {nodeNum}
  | epsilonNode _ => ∅
  | orNode left right => left.firstpos ∪ right.firstpos
  | catNode left right =>
    if left.nullable then left.firstpos ∪ right.firstpos else left.firstpos
  | starNode left => left.firstpos
  | eofNode nodeNum => {nodeNum}
  | cclNode _ nodeNum => {nodeNum}

def lastpos : Node → NodeSet
  | charNode _ nodeNum => {nodeNum}
  | epsilonNode _ => ∅
  | orNode left right => left.lastpos ∪ right.lastpos
  | catNode left right =>
    if right.nullable then left.lastpos ∪ right.lastpos else right.lastpos
  | starNode left => left.lastpos
  | eofNode nodeNum => {nodeNum}
  | cclNode _ nodeNum => {nodeNum}

/-- `followpos[i].insert` for every `i` of a set. -/
def insertAfter (positions after : NodeSet) (followpos : Followpos) : Followpos := fun i =>
  if i ∈ positions then followpos i ∪ after else followpos i

def computeFollowpos : Node → Followpos → Followpos
  | charNode _ _, followpos => followpos
  | epsilonNode _, followpos => followpos
  | orNode left right, followpos => right.computeFollowpos (left.computeFollowpos followpos)
  | catNode left right, followpos =>
    right.computeFollowpos (left.computeFollowpos
      (insertAfter left.lastpos right.firstpos followpos))
  | starNode left, followpos =>
    left.computeFollowpos (insertAfter left.lastpos left.firstpos followpos)
  | eofNode _, followpos => followpos
  | cclNode _ _, followpos => followpos

/-- The flags with a row for the node, changed by `f`. -/
def setRow (nodeNum : ℕ) (f : List Bool → List Bool) (stateMatch : StateMatch) : StateMatch :=
  let grown :=
    if stateMatch.length < nodeNum + 1 then resize stateMatch (nodeNum + 1) [] else stateMatch
  grown.modify nodeNum f

def computeStateMatch : Node → StateMatch → StateMatch
  | charNode char nodeNum, stateMatch =>
    setRow nodeNum (fun row => (resize row 256 false).set char.toNat true) stateMatch
  | epsilonNode nodeNum, stateMatch => setRow nodeNum (fun row => resize row 256 true) stateMatch
  | orNode left right, stateMatch => right.computeStateMatch (left.computeStateMatch stateMatch)
  | catNode left right, stateMatch => right.computeStateMatch (left.computeStateMatch stateMatch)
  | starNode left, stateMatch => left.computeStateMatch stateMatch
  | eofNode nodeNum, stateMatch => setRow nodeNum (fun row => resize row 256 false) stateMatch
  | cclNode flags nodeNum, stateMatch => setRow nodeNum (fun _ => flags.toList) stateMatch

def getEofIds : Node → NodeSet → NodeSet
  | charNode _ _, eofSet => eofSet
  | epsilonNode _, eofSet => eofSet
  | orNode left right, eofSet => right.getEofIds (left.getEofIds eofSet)
  | catNode left right, eofSet => right.getEofIds (left.getEofIds eofSet)
  | starNode left, eofSet => left.getEofIds eofSet
  | eofNode nodeNum, eofSet => insert nodeNum eofSet
  | cclNode _ _, eofSet => eofSet

/-- The tree with its leaves numbered from a count, and the count after them. -/
def assignNodeIds : Node → ℕ → Node × ℕ
  | charNode char _, nodeCount => (charNode char nodeCount, nodeCount + 1)
  | epsilonNode _, nodeCount => (epsilonNode nodeCount, nodeCount + 1)
  | orNode left right, nodeCount =>
    let numberedLeft := left.assignNodeIds nodeCount
    let numberedRight := right.assignNodeIds numberedLeft.2
    (orNode numberedLeft.1 numberedRight.1, numberedRight.2)
  | catNode left right, nodeCount =>
    let numberedLeft := left.assignNodeIds nodeCount
    let numberedRight := right.assignNodeIds numberedLeft.2
    (catNode numberedLeft.1 numberedRight.1, numberedRight.2)
  | starNode left, nodeCount =>
    let numbered := left.assignNodeIds nodeCount
    (starNode numbered.1, numbered.2)
  | eofNode _, nodeCount => (eofNode nodeCount, nodeCount + 1)
  | cclNode flags _, nodeCount => (cclNode flags nodeCount, nodeCount + 1)

/-! ## The expression of a tree -/

/-- The texts that a tree stands for.  The end of an expression is no text. -/
def lang : Node → Language UInt8
  | charNode char _ => {[char]}
  | epsilonNode _ => 1
  | orNode left right => left.lang + right.lang
  | catNode left right => left.lang * right.lang
  | starNode left => KStar.kstar left.lang
  | eofNode _ => 0
  | cclNode flags _ => {x | ∃ c : UInt8, x = [c] ∧ flags.toList[c.toNat]? = some true}

/-- The tree as a regular expression over the numbers of its nodes. -/
def expr : Node → RegularExpression ℕ
  | charNode _ nodeNum => .char nodeNum
  | epsilonNode _ => 1
  | orNode left right => left.expr + right.expr
  | catNode left right => left.expr * right.expr
  | starNode left => .star left.expr
  | eofNode nodeNum => .char nodeNum
  | cclNode _ nodeNum => .char nodeNum

theorem nullable_eq (t : Node) : t.nullable = t.expr.matchEpsilon := by
  induction t with
  | charNode c k => rfl
  | epsilonNode k => rfl
  | orNode l r ihl ihr => rw [nullable, ihl, ihr]; rfl
  | catNode l r ihl ihr => rw [nullable, ihl, ihr]; rfl
  | starNode l _ => rfl
  | eofNode k => rfl
  | cclNode flags k => rfl

theorem firstpos_eq (t : Node) : t.firstpos = t.expr.firsts := by
  induction t with
  | charNode c k => rfl
  | epsilonNode k => rfl
  | orNode l r ihl ihr => rw [firstpos, ihl, ihr]; rfl
  | catNode l r ihl ihr => rw [firstpos, ihl, ihr, nullable_eq]; rfl
  | starNode l ih => rw [firstpos, ih]; rfl
  | eofNode k => rfl
  | cclNode flags k => rfl

theorem lastpos_eq (t : Node) : t.lastpos = t.expr.lasts := by
  induction t with
  | charNode c k => rfl
  | epsilonNode k => rfl
  | orNode l r ihl ihr => rw [lastpos, ihl, ihr]; rfl
  | catNode l r ihl ihr => rw [lastpos, ihl, ihr, nullable_eq]; rfl
  | starNode l ih => rw [lastpos, ih]; rfl
  | eofNode k => rfl
  | cclNode flags k => rfl

theorem mem_insertAfter {positions after : NodeSet} {followpos : Followpos} {i j : ℕ} :
    j ∈ insertAfter positions after followpos i ↔
      j ∈ followpos i ∨ i ∈ positions ∧ j ∈ after := by
  rw [insertAfter]
  by_cases h : i ∈ positions
  · simp [h]
  · simp [h]

theorem mem_computeFollowpos (t : Node) (followpos : Followpos) (i j : ℕ) :
    j ∈ t.computeFollowpos followpos i ↔ j ∈ followpos i ∨ j ∈ t.expr.follows i := by
  induction t generalizing followpos with
  | charNode c k => exact (or_iff_left (Finset.notMem_empty j)).symm
  | epsilonNode k => exact (or_iff_left (Finset.notMem_empty j)).symm
  | orNode l r ihl ihr =>
    rw [computeFollowpos, ihr, ihl, or_assoc]
    exact or_congr_right Finset.mem_union.symm
  | catNode l r ihl ihr =>
    rw [computeFollowpos, ihr, ihl, mem_insertAfter, lastpos_eq, firstpos_eq]
    have h : j ∈ (catNode l r).expr.follows i ↔ _ := RegularExpression.mem_follows_mul
    rw [h]
    tauto
  | starNode l ih =>
    rw [computeFollowpos, ih, mem_insertAfter, lastpos_eq, firstpos_eq]
    have h : j ∈ (starNode l).expr.follows i ↔ _ := RegularExpression.mem_follows_star
    rw [h]
    tauto
  | eofNode k => exact (or_iff_left (Finset.notMem_empty j)).symm
  | cclNode flags k => exact (or_iff_left (Finset.notMem_empty j)).symm

end Node

end P4LS.Slex
