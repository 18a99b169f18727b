import P4LS.Slex.Match

/-!
# The regular expression lexer

A lexer has a list of expressions for each of its states.  The first call of `next_token` makes
the tables.  A call returns the token of the expression that the text is matched with, unless the
expression has a callback: this may move the place of the input, change the token and the state,
and it may have the token ignored, and then the call goes on with the next one.

An iterator is the text from it to the end.
-/

namespace P4LS.Slex

/-- `lexer_control`: what a callback sees and changes of the lexer. -/
structure LexerControl where
  token : ℤ
  ignoreCurrentTokenSet : Bool
  currentState : ℕ
  stateStack : List ℕ
  deriving DecidableEq

namespace LexerControl

def setState (control : LexerControl) (state : ℕ) : LexerControl :=
  { control with currentState := state }

def pushState (control : LexerControl) (newState : ℕ) : LexerControl :=
  { control with
    stateStack := control.currentState :: control.stateStack, currentState := newState }

/-- `none` is the top of an empty stack. -/
def popState (control : LexerControl) : Option LexerControl :=
  match control.stateStack with
  | [] => none
  | top :: stateStack => some { control with currentState := top, stateStack := stateStack }

def setToken (control : LexerControl) (token : ℤ) : LexerControl := { control with token := token }

def terminate (control : LexerControl) : LexerControl := { control with token := -1 }

def ignoreCurrentToken (control : LexerControl) : LexerControl :=
  { control with ignoreCurrentTokenSet := true }

/-- The states are among the first `n`. -/
def Within (n : ℕ) (control : LexerControl) : Prop :=
  control.currentState < n ∧ ∀ state ∈ control.stateStack, state < n

theorem Within.setState {n state : ℕ} {control : LexerControl} (h : control.Within n)
    (hstate : state < n) : (control.setState state).Within n := ⟨hstate, h.2⟩

theorem Within.pushState {n state : ℕ} {control : LexerControl} (h : control.Within n)
    (hstate : state < n) : (control.pushState state).Within n :=
  ⟨hstate, List.forall_mem_cons.mpr h⟩

theorem Within.popState {n : ℕ} {control popped : LexerControl} (h : control.Within n)
    (hpop : control.popState = some popped) : popped.Within n := by
  rw [LexerControl.popState] at hpop
  cases hstack : control.stateStack with
  | nil =>
    rw [hstack] at hpop
    cases hpop
  | cons top stateStack =>
    have hall := h.2
    rw [hstack] at hpop hall
    cases hpop
    exact List.forall_mem_cons.mp hall

end LexerControl

/-- What a callback does with the beginning of the match, the place of the input and the token. -/
abbrev Callback := Text → Text → ℤ → LexerControl → Text × LexerControl

structure RegexInfo where
  str : Text
  token : ℤ
  callback : Option Callback

structure Lexer where
  compiledDfa : Bool
  dfa : List DfaTable
  regexList : List (List RegexInfo)
  caseInsensitive : Bool
  state : ℕ
  stateStack : List ℕ
  numStates : ℕ

namespace Lexer

/-- The constructor. -/
def new (states : ℕ) : Lexer where
  compiledDfa := false
  dfa := []
  regexList := List.replicate states []
  caseInsensitive := false
  state := 0
  stateStack := []
  numStates := states

def setCaseInsensitive (lexer : Lexer) (insensitive : Bool) : Lexer :=
  { lexer with caseInsensitive := insensitive }

def registerRegex (lexer : Lexer) (info : RegexInfo) (state : ℕ) : Except Failure Lexer :=
  let lexer :=
    if lexer.numStates < state then
      { lexer with regexList := resize lexer.regexList state [], numStates := state }
    else lexer
  if state < lexer.regexList.length then
    .ok { lexer with regexList := lexer.regexList.modify state (· ++ [info]) }
  else
    .error .access

/-- The tables of some states, one after another.  A table that is made stays when a later one
fails. -/
def createStates (grammar : Text → Option Node) : List ℕ → Lexer → Except Failure Unit × Lexer
  | [], lexer => (.ok (), lexer)
  | state :: states, lexer =>
    match lexer.regexList[state]? with
    | none => (.error .access, lexer)
    | some regexes =>
      match lexer.dfa[state]? with
      | none => (.error .access, lexer)
      | some dfa =>
        match createDfaForState grammar lexer.caseInsensitive (regexes.map RegexInfo.str) dfa with
        | .error failure => (.error failure, lexer)
        | .ok dfa =>
          createStates grammar states
            { lexer with dfa := lexer.dfa.set state dfa, compiledDfa := true }

def createDfa (grammar : Text → Option Node) (lexer : Lexer) : Except Failure Unit × Lexer :=
  createStates grammar (List.range lexer.numStates)
    { lexer with dfa := resize lexer.dfa lexer.numStates ⟨[], []⟩ }

/-- `next_token`: the token id, what is left of the text, and the characters of the token.  The
fuel bounds the tokens ignored. -/
def nextToken (grammar : Text → Option Node) :
    ℕ → Lexer → Text → Text → Except Failure (ℤ × Text × Text) × Lexer
  | fuel, lexer, first, token =>
    match if lexer.compiledDfa then (.ok (), lexer) else lexer.createDfa grammar with
    | (.error failure, lexer) => (.error failure, lexer)
    | (.ok (), lexer) =>
      match lexer.dfa[lexer.state]?.bind fun dfa => doMatch dfa first token with
      | none => (.error .access, lexer)
      | some (none, token) => (.ok (-1, first, token), lexer)
      | some (some (regexIndex, rest), token) =>
        match lexer.regexList[lexer.state]?.bind fun regexes => regexes[regexIndex]? with
        | none => (.error .access, lexer)
        | some regex =>
          match regex.callback with
          | none => (.ok (regex.token, rest, token), lexer)
          | some callback =>
            let (rest, control) := callback first rest regex.token
              ⟨regex.token, false, lexer.state, lexer.stateStack⟩
            let lexer :=
              { lexer with state := control.currentState, stateStack := control.stateStack }
            if control.ignoreCurrentTokenSet then
              match fuel with
              | 0 => (.error .fuel, lexer)
              | fuel + 1 => nextToken grammar fuel lexer rest []
            else
              (.ok (control.token, rest, token), lexer)

end Lexer

end P4LS.Slex
