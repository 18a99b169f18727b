import P4LS.Slex.Spirit

/-!
# The actions of the grammar

Each action takes the text that its rule read and the stack of nodes.  A pop of an empty stack, a
read behind the text and the use of a value that was never assigned are an access that the language
does not define.
-/

namespace P4LS.Slex

open Bytes

/-- The nodes on the stack, the top first. -/
abbrev NodeStack := List Node

abbrev Action := Text → NodeStack → Except Failure NodeStack

/-- The actions that push the node of what was read. -/
def push (make : Text → Except Failure Node) : Action := fun passed stack =>
  (make passed).map (· :: stack)

def makeConcat : Action
  | _, right :: left :: stack => .ok (.catNode left right :: stack)
  | _, _ => .error .access

def makeStar : Action
  | _, left :: stack => .ok (.starNode left :: stack)
  | _, [] => .error .access

def makeOr : Action
  | _, right :: left :: stack => .ok (.orNode left right :: stack)
  | _, _ => .error .access

def makePlus : Action
  | _, left :: stack => .ok (.catNode left (.starNode left) :: stack)
  | _, [] => .error .access

def optionalNode (n : Node) : Node := .orNode n (.epsilonNode 0)

def makeOptional : Action
  | _, left :: stack => .ok (optionalNode left :: stack)
  | _, [] => .error .access

/-- A set of characters, the `range_run` of a class. -/
abbrev RangeRun := UInt8 → Bool

/-- `range_run::set` of a range.  The characters are signed. -/
def RangeRun.set (rr : RangeRun) (first last : UInt8) : RangeRun := fun c =>
  rr c || decide (first.toInt8 ≤ c.toInt8 ∧ c.toInt8 ≤ last.toInt8)

def negateRangeRun (rr : RangeRun) : RangeRun := fun c => !rr c

def fillCcl (spirit : Spirit) (rr : RangeRun) (name : CclExpr) : RangeRun := fun c =>
  rr c || spirit.test name c

/-- The node that `create_nodes` pushes, for characters of one byte. -/
def createNodes (rr : RangeRun) : Node := .cclNode (Vector.ofFn fun i => rr (UInt8.ofNat i)) 0

def readChar (spirit : Spirit) (passed : Text) : Except Failure Node :=
  match spirit.lexEscapeCh passed with
  | none => .error .access
  | some (c, _) => .ok (.charNode c 0)

def makeChar (spirit : Spirit) : Action := push (readChar spirit)

/-- The loop of `make_ccl` over the characters before the `]`. -/
def cclLoop (spirit : Spirit) : ℕ → Text → RangeRun → Except Failure RangeRun
  | 0, _, _ => .error .fuel
  | _ + 1, [], rr => .ok rr
  | n + 1, c :: x, rr =>
    if c = ch ']' then .ok rr
    else if c = ch '[' then
      -- The characters up to the next `]` are passed over, also where they are no name.
      match (c :: x).dropWhile (· != ch ']') with
      | [] => .error .access
      | _ :: rest =>
        cclLoop spirit n rest (match CclExpr.find (c :: x) with
          | some name => fillCcl spirit rr name
          | none => rr)
    else
      match spirit.lexEscapeCh (c :: x) with
      | none => .error .access
      | some (_, []) => .error .access
      | some (c₁, d :: rest) =>
        if d = ch '-' then
          match spirit.lexEscapeCh rest with
          | none => .error .access
          | some (c₂, rest) =>
            if c₁.toInt8 < c₂.toInt8 then cclLoop spirit n rest (rr.set c₁ c₂)
            else .error .assertion
        else cclLoop spirit n (d :: rest) (rr.set c₁ c₁)

def noChars : RangeRun := fun _ => false

def readCcl (spirit : Spirit) : Text → Except Failure Node
  | [] => .error .access
  | c :: first =>
    if c ≠ ch '[' then .error .assertion
    else
      match first with
      | [] => .error .access
      | d :: x =>
        if d = ch '^' then
          (cclLoop spirit (x.length + 1) x noChars).map fun rr => createNodes (negateRangeRun rr)
        else (cclLoop spirit ((d :: x).length + 1) (d :: x) noChars).map createNodes

def makeCcl (spirit : Spirit) : Action := push (readCcl spirit)

/-- All characters but the newline. -/
def anyChar : RangeRun := fun c => c != ch '\n'

def makeAnyChar : Action := push fun passed =>
  if passed = [ch '.'] then .ok (createNodes anyChar) else .error .assertion

/-- The loop of `make_string` over the characters behind the first.  Where no character is read the
loop does not advance. -/
def stringLoop (spirit : Spirit) : ℕ → Text → Node → Except Failure Node
  | 0, _, _ => .error .fuel
  | _ + 1, [], _ => .error .access
  | n + 1, c :: x, topNode =>
    if c = ch '"' then .ok topNode
    else
      match spirit.lexEscapeCh (c :: x) with
      | none => .error .fuel
      | some (d, rest) => stringLoop spirit n rest (.catNode topNode (.charNode d 0))

def readString (spirit : Spirit) : Text → Except Failure Node
  | [] => .error .access
  | c :: x =>
    if c ≠ ch '"' then .error .assertion
    else if x.head? = some (ch '"') then .error .badRegex
    else
      match spirit.lexEscapeCh x with
      | none => .error .access
      | some (d, rest) => stringLoop spirit (rest.length + 1) rest (.charNode d 0)

def makeString (spirit : Spirit) : Action := push (readString spirit)

/-- `repeat_node`, whose count is an `int`. -/
def repeatNode (n : Node) (num : ℕ) : Node :=
  if num < 2 ^ 31 then (fun nodes => Node.catNode nodes n)^[num - 1] n else n

/-- `make_rep1`: the number behind the `{`. -/
def makeRep1 (spirit : Spirit) : Action
  | [], _ => .error .access
  | c :: x, stack =>
    if c ≠ ch '\x7b' then .error .assertion
    else
      match spirit.uintParser x with
      | none => .error .access
      | some (count, _) =>
        if count = 0 then .error .badRegex
        else
          match stack with
          | [] => .error .access
          | topNode :: stack => .ok (repeatNode topNode count :: stack)

def makeRep2 (spirit : Spirit) : Action
  | [], _ => .error .access
  | c :: x, stack =>
    if c ≠ ch '\x7b' then .error .assertion
    else
      match spirit.uintParser x with
      | none => .error .badRegex
      | some (count, _) =>
        if count = 0 then .error .badRegex
        else
          match stack with
          | [] => .error .access
          | topNode :: stack =>
            .ok (.catNode (repeatNode topNode count) (.starNode topNode) :: stack)

/-- `make_rep3`: behind the first number a character is skipped, which is the comma. -/
def makeRep3 (spirit : Spirit) : Action
  | [], _ => .error .access
  | c :: x, stack =>
    if c ≠ ch '\x7b' then .error .assertion
    else
      match spirit.uintParser x with
      | none => .error .badRegex
      | some (count1, rest) =>
        if count1 = 0 then .error .badRegex
        else
          match spirit.uintParser rest.tail with
          | none => .error .badRegex
          | some (count2, _) =>
            if count2 ≤ count1 then .error .badRegex
            else
              match stack with
              | [] => .error .access
              | topNode :: stack =>
                .ok (.catNode (repeatNode topNode count1)
                  (repeatNode (optionalNode topNode) (count2 - count1)) :: stack)

end P4LS.Slex
