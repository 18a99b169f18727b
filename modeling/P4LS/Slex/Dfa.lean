import Mathlib.Data.Finset.Sort
import P4LS.Library.Numbering
import P4LS.Slex.Regexes

/-!
# The tables of the lexer generator

`create_dfa_for_state` computes the automaton of a list of regular expressions: the sets of
positions are numbered as they are found, and each of them gets a row of the transition table and
an entry of the acceptance index.  `none` is `invalid_node`, and an assertion that fails ends the
computation.

The loop over the unmarked states is the worklist of the library.

A `node_id_t` is an `unsigned int`, and 2^32 - 1 is `invalid_node`.  A state is a number here, so
the tables are those of the program as long as they have fewer than 2^32 - 1 states.
-/

namespace P4LS.Slex

structure DfaTable where
  transitionTable : List (List (Option ℕ))
  acceptanceIndex : List (Option ℕ)
  deriving DecidableEq

/-- The first of the ends that is in a set. -/
def findAcceptanceState (eofNodeIds currentSet : NodeSet) : Option ℕ :=
  (eofNodeIds.sort (· ≤ ·)).find? (· ∈ currentSet)

/-- The ends numbered from 0 in their order. -/
def eofNodeIdMap (eofNodeIds : NodeSet) : List (ℕ × ℕ) := (eofNodeIds.sort (· ≤ ·)).zipIdx

/-- If either case of a letter is set, both are turned on. -/
def makeCaseInsensitive (stateMatch : StateMatch) : StateMatch :=
  stateMatch.map fun row => (List.range 26).foldl (fun row i =>
    let set := row.getD (65 + i) false || row.getD (97 + i) false
    (row.set (65 + i) set).set (97 + i) set) row

/-- What the construction computes from the tree. -/
structure Positions where
  followpos : Followpos
  stateMatch : StateMatch
  eofNodeIds : NodeSet

/-- The states so far: `dstates1` and `dstates2` map sets to numbers and back. -/
structure Dstates where
  dstates1 : List (NodeSet × ℕ)
  dstates2 : List (ℕ × NodeSet)
  marked : List Bool
  numStates : ℕ
  dfa : DfaTable

def invalidRow : List (Option ℕ) := List.replicate 256 none

/-- The acceptance index of the newest state. -/
def acceptanceFor (eofNodeIds : NodeSet) (target : ℕ) (set : NodeSet)
    (acceptanceIndex : List (Option ℕ)) : List (Option ℕ) :=
  match findAcceptanceState eofNodeIds set with
  | some eofNodeId =>
    acceptanceIndex.set target (some (((eofNodeIdMap eofNodeIds).lookup eofNodeId).getD 0))
  | none => acceptanceIndex

/-- The positions after those of a state that read a character; `none` is a failed assertion. -/
def followSet (tree : Positions) (tstates : NodeSet) (j : ℕ) : Option NodeSet :=
  if ∀ p ∈ tstates, p < tree.stateMatch.length ∧ j < (tree.stateMatch.getD p []).length then
    some (tstates.biUnion fun p => if flag tree.stateMatch p j then tree.followpos p else ∅)
  else
    none

/-- The number of a set, which is added if it is not in the states yet. -/
def targetState (tree : Positions) (set : NodeSet) (work : Dstates) : ℕ × Dstates :=
  match work.dstates1.lookup set with
  | some target => (target, work)
  | none =>
    let target := work.numStates + 1
    (target,
      { dstates1 := work.dstates1 ++ [(set, target)]
        dstates2 := work.dstates2 ++ [(target, set)]
        marked := work.marked ++ [false]
        numStates := target
        dfa :=
          { transitionTable := work.dfa.transitionTable ++ [invalidRow]
            acceptanceIndex := acceptanceFor tree.eofNodeIds target set
              (work.dfa.acceptanceIndex ++ [none]) } })

/-- One character of a state. -/
def visitChar (tree : Positions) (T : ℕ) (tstates : NodeSet) (work : Dstates) (j : ℕ) :
    Option Dstates :=
  match followSet tree tstates j with
  | none => none
  | some set =>
    if 0 < set.card then
      let (target, work) := targetState tree set work
      match work.dfa.transitionTable[T]? with
      | none => none
      | some row =>
        if j < row.length then
          some { work with
            dfa := { work.dfa with
              transitionTable := work.dfa.transitionTable.set T (row.set j (some target)) } }
        else
          none
    else
      some work

/-- The loop over the unmarked states. -/
def markStates (tree : Positions) : ℕ → Dstates → Option Dstates
  | fuel, work =>
    match work.marked.findIdx? (fun marked => !marked) with
    | none => some work
    | some T =>
      match fuel with
      | 0 => none
      | fuel + 1 =>
        if T < work.dstates2.length then
          let tstates := (work.dstates2.lookup T).getD ∅
          match (List.range 256).foldlM (visitChar tree T tstates)
              { work with marked := work.marked.set T true } with
          | none => none
          | some work => markStates tree fuel work
        else
          none

/-- The states before the loop: only the first set is there. -/
def initialStates (tree : Positions) (fpr : NodeSet) (dfa : DfaTable) : Dstates where
  dstates1 := [(fpr, 0)]
  dstates2 := [(0, fpr)]
  marked := [false]
  numStates := 0
  dfa :=
    { transitionTable := dfa.transitionTable ++ [invalidRow]
      acceptanceIndex := acceptanceFor tree.eofNodeIds 0 fpr (dfa.acceptanceIndex ++ [none]) }

/-- What `resize` throws: more elements are asked for than a vector can have, or than there is
memory for. -/
inductive AllocFailure where
  | lengthError
  | badAlloc
  deriving DecidableEq

/-- What ends a call: an exception, a failed assertion, an access outside a vector, or the end of
the fuel. -/
inductive Failure where
  | badRegex
  | alloc (failure : AllocFailure)
  | assertion
  | access
  | fuel
  deriving DecidableEq

/-- What is computed from the numbered tree. -/
def treePositions (caseInsensitive : Bool) (tree : Node) : Positions where
  followpos := tree.computeFollowpos fun _ => ∅
  stateMatch :=
    if caseInsensitive then makeCaseInsensitive (tree.computeStateMatch [])
    else tree.computeStateMatch []
  eofNodeIds := tree.getEofIds ∅

/-- `create_dfa_for_state` on the table that is there.  The fuel is the number of the sets of
positions, which bounds the states. -/
def createDfaForState (grammar : Text → Option Node) (caseInsensitive : Bool)
    (regexes : List Text) (dfa : DfaTable) : Except Failure DfaTable :=
  match parseRegexes grammar regexes with
  | none => .error .badRegex
  | some parsed =>
    let numbered := parsed.assignNodeIds 0
    let positions := treePositions caseInsensitive numbered.1
    match markStates positions (2 ^ numbered.2)
        (initialStates positions numbered.1.firstpos dfa) with
    | none => .error .assertion
    | some work => .ok work.dfa

end P4LS.Slex
