import P4LS.Library.Stream

/-!
# The lexer

`Lexer` is the state of the lexer class: the stream, one character of lookahead
in `last`, and the row and column of that character.  Only a block comment can
keep a call from returning, so the loops that always end are well-founded
recursions and `next` carries a bound on the rest: `none` means that the bound
was too small.

`row` and `col` are numbers here and `int`s in the class, which counts one for
each character at most: on an input of less than 2^31 characters they are the same.
-/

namespace P4LS

open Bytes

/-- The token ids the lexer returns. -/
inductive Token where
  | tEnd | tEndPragma | tUnknown
  | tAbstract | tAction | tActions | tApply | tBool | tBit | tConst | tControl | tDefault
  | tElse | tEntries | tEnum | tError | tExit | tExtern | tFalse | tHeader | tHeaderUnion
  | tIf | tIn | tInout | tInt | tKey | tMatchKind | tType | tOut | tParser | tPackage
  | tReturn | tSelect | tState | tStruct | tSwitch | tTable | tThis | tTransition | tTrue
  | tTuple | tTypedef | tVarbit | tValueSet | tVoid | tDontcare | tIdentifier
  | tNumber | tStringLiteral
  | tNe | tNot | tMod | tMask | tAnd | tBitAnd | tLParen | tRParen | tMul | tPp | tPlus
  | tComma | tMinus | tRange | tDot | tDiv | tColon | tSemicolon | tShl | tLe | tLAngle
  | tEq | tAssign | tGe | tRAngle | tQuestion | tAt | tLBracket | tRBracket | tBitXor
  | tLBrace | tPlusSat | tMinusSat | tOr | tBitOr | tRBrace | tComplement
  deriving DecidableEq

/-- `EOF` as it is stored in a `char`. -/
def EOF : UInt8 := 255

structure Lexer where
  text : Bytes
  value : Int32
  width : Int32
  is : Istream
  last : UInt8
  row : Nat
  col : Nat

/-- A call either returns a token or lets a conversion exception out. -/
abbrev Outcome := Except ConversionError Token × Lexer

namespace Lexer

/-- A lexer constructed over an input. -/
def start (input : Bytes) : Lexer :=
  { text := [], value := 0, width := 32, is := Istream.ofBytes input, last := ch ' ',
    row := 1, col := 0 }

/-- `last = is.get()`. -/
def getLast (lx : Lexer) : Lexer :=
  { lx with last := lx.is.get.1.getD EOF, is := lx.is.get.2 }

def advance (lx : Lexer) : Lexer :=
  if lx.last = EOF then lx
  else if lx.getLast.last = ch '\n' then
    { lx.getLast with row := lx.row + 1, col := 0 }
  else
    { lx.getLast with col := lx.col + 1 }

/-- What is left to consume, the lookahead included. -/
def size (lx : Lexer) : Nat := lx.is.rest.length + if lx.last = EOF then 0 else 1

/-! ## The loops make progress -/

@[simp] theorem getLast_text (lx : Lexer) : lx.getLast.text = lx.text := rfl

theorem getLast_rest_length (lx : Lexer) :
    lx.getLast.is.rest.length ≤ lx.is.rest.length ∧
      (lx.getLast.last ≠ EOF → lx.getLast.is.rest.length < lx.is.rest.length) := by
  by_cases hg : lx.is.good = true
  · rw [getLast, Istream.eq_ofBytes hg]
    cases lx.is.rest with
    | nil => simp
    | cons c rest => simp
  · rw [getLast, Istream.get_of_not_good (by simpa using hg)]
    simp

theorem size_getLast_lt {lx : Lexer} (h : lx.last ≠ EOF) : lx.getLast.size < lx.size := by
  have hle := getLast_rest_length lx
  unfold size
  rw [if_neg h]
  split
  · omega
  · rename_i hlast
    have := hle.2 hlast
    omega

theorem advance_of_eof {lx : Lexer} (h : lx.last = EOF) : lx.advance = lx := by
  rw [advance, if_pos h]

theorem advance_is {lx : Lexer} (h : lx.last ≠ EOF) : lx.advance.is = lx.getLast.is := by
  rw [advance, if_neg h]
  split <;> rfl

theorem advance_last {lx : Lexer} (h : lx.last ≠ EOF) : lx.advance.last = lx.getLast.last := by
  rw [advance, if_neg h]
  split <;> rfl

theorem size_advance_lt {lx : Lexer} (h : lx.last ≠ EOF) : lx.advance.size < lx.size := by
  have hsize : lx.advance.size = lx.getLast.size := by
    rw [size, size, advance_is h, advance_last h]
  rw [hsize]
  exact size_getLast_lt h

theorem ne_eof_of_isspace {c : UInt8} (h : isspace c = true) : c ≠ EOF :=
  ne_of_class h (by decide)

/-! ## White space, words and strings -/

/-- The loop `while (isspace(last)) advance();`. -/
def skipSpaces (lx : Lexer) : Lexer :=
  if isspace lx.last then skipSpaces lx.advance else lx
termination_by lx.size
decreasing_by
  rename_i h
  exact size_advance_lt (ne_eof_of_isspace h)

def isWordChar (c : UInt8) : Bool := isalnum c || c == ch '_'

theorem ne_eof_of_isWordChar {c : UInt8} (h : isWordChar c = true) : c ≠ EOF :=
  ne_of_class h (by decide)

/-- The loop of `read_identifier`. -/
def wordLoop (lx : Lexer) : Lexer :=
  if isWordChar lx.getLast.last then
    wordLoop { lx.getLast with text := lx.text ++ [lx.getLast.last], col := lx.col + 1 }
  else
    lx.getLast
termination_by lx.is.rest.length
decreasing_by
  rename_i h
  exact (getLast_rest_length lx).2 (ne_eof_of_isWordChar h)

/-- The comparisons at the end of `read_identifier`, in their order. -/
def keywords : List (Bytes × Token) :=
  [(str "abstract", .tAbstract), (str "action", .tAction), (str "actions", .tActions),
   (str "apply", .tApply), (str "bool", .tBool), (str "bit", .tBit), (str "const", .tConst),
   (str "control", .tControl), (str "default", .tDefault), (str "else", .tElse),
   (str "entries", .tEntries), (str "enum", .tEnum), (str "error", .tError),
   (str "exit", .tExit), (str "extern", .tExtern), (str "false", .tFalse),
   (str "header", .tHeader), (str "header_union", .tHeaderUnion), (str "if", .tIf),
   (str "in", .tIn), (str "inout", .tInout), (str "int", .tInt), (str "key", .tKey),
   (str "match_kind", .tMatchKind), (str "type", .tType), (str "out", .tOut),
   (str "parser", .tParser), (str "package", .tPackage), (str "return", .tReturn),
   (str "select", .tSelect), (str "state", .tState), (str "struct", .tStruct),
   (str "switch", .tSwitch), (str "table", .tTable), (str "this", .tThis),
   (str "transition", .tTransition), (str "true", .tTrue), (str "tuple", .tTuple),
   (str "typedef", .tTypedef), (str "varbit", .tVarbit), (str "value_set", .tValueSet),
   (str "void", .tVoid), (str "_", .tDontcare)]

def wordToken (text : Bytes) : Token := (keywords.lookup text).getD .tIdentifier

def readIdentifier (lx : Lexer) : Token × Lexer :=
  let lx := wordLoop { lx with text := [lx.last] }
  (wordToken lx.text, { lx with col := lx.col + 1 })

def withText (lx : Lexer) (text : Bytes) : Lexer := { lx with text := text }

/-- The loop of `read_string`. -/
def stringLoop (lx : Lexer) : Token × Lexer :=
  if lx.last = ch '"' then (.tStringLiteral, lx)
  else if lx.last = EOF then (.tUnknown, lx)
  else if lx.last = ch '\\' then
    if lx.getLast.last = EOF then (.tUnknown, lx.getLast)
    else stringLoop (lx.getLast.getLast.withText (lx.text ++ [ch '\\'] ++ [lx.getLast.last]))
  else
    stringLoop (lx.getLast.withText (lx.text ++ [lx.last]))
termination_by lx.size
decreasing_by
  · rename_i _ h2 _ h4
    exact Nat.lt_trans (size_getLast_lt h4) (size_getLast_lt h2)
  · rename_i _ h2 _
    exact size_getLast_lt h2

def readString (lx : Lexer) : Token × Lexer := stringLoop (lx.withText [])

def readPragma (lx : Lexer) : Token × Lexer := (.tEndPragma, lx)

/-! ## Comments -/

/-- The loop `do { advance(); } while (last == '*');`. -/
def skipStars (lx : Lexer) : Lexer :=
  if lx.advance.last = ch '*' then skipStars lx.advance else lx.advance
termination_by lx.size
decreasing_by
  rename_i h
  apply size_advance_lt
  intro heof
  rw [advance_of_eof heof, heof] at h
  revert h
  decide

/-- One round of the loop over a block comment.  The end of the comment is marked
by overwriting the lookahead with NUL, and a NUL in the text looks the same. -/
def blockRound (lx : Lexer) : Lexer :=
  if lx.advance.last = ch '*' then
    if lx.advance.skipStars.last = ch '/' then { lx.advance.skipStars with last := 0 }
    else lx.advance.skipStars
  else
    lx.advance

def blockLoop : Nat → Lexer → Option Lexer
  | 0, _ => none
  | fuel + 1, lx =>
    if lx.blockRound.last ≠ 0 then blockLoop fuel lx.blockRound else some lx.blockRound

def readComment (fuel : Nat) (lx : Lexer) : Option Lexer :=
  if lx.last = ch '/' then some { lx with is := lx.is.getLine }.advance
  else (blockLoop fuel lx).map advance

def readLocation (lx : Lexer) : Lexer := { lx with is := lx.is.getLine }.advance

end Lexer

end P4LS
