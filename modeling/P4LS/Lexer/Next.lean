import P4LS.Lexer.State

/-!
# Tokens

`read_number`, `read_other` and `next`.  The regular expressions of
`read_number` are written as the one way their groups can match: the first
group is taken exactly when the leading digits are followed by `s` or `w`, and
the base prefix whenever a digit follows it.
-/

namespace P4LS

open Bytes

namespace Lexer

/-! ## Numbers -/

/-- The characters `read_number` collects. -/
def isNumberChar (c : UInt8) : Bool :=
  isdigit c || c == ch '_' || c == ch 'w' || c == ch 's'
    || c == ch 'a' || c == ch 'A' || c == ch 'b' || c == ch 'B'
    || c == ch 'c' || c == ch 'C' || c == ch 'd' || c == ch 'D'
    || c == ch 'e' || c == ch 'E' || c == ch 'f' || c == ch 'F'
    || c == ch 'o' || c == ch 'O' || c == ch 'x' || c == ch 'X'

theorem ne_eof_of_isNumberChar {c : UInt8} (h : isNumberChar c = true) : c ≠ EOF :=
  ne_of_class h (by decide)

/-- The rounds of the loop over the literal after its first one. -/
def numberLoop (numstr : Bytes) (lx : Lexer) : Bytes × Lexer :=
  if isNumberChar lx.last then numberLoop (numstr ++ [lx.last]) lx.advance else (numstr, lx)
termination_by lx.size
decreasing_by
  rename_i h
  exact size_advance_lt (ne_eof_of_isNumberChar h)

/-- The groups of a match: width digits with `s` or `w`, base prefix, digits. -/
structure NumberMatch where
  sized : Option (Bytes × UInt8)
  base : Option UInt8
  digits : Bytes

def isHexOrUnderscore (c : UInt8) : Bool :=
  isdigit c || (ch 'A' ≤ c && c ≤ ch 'F') || (ch 'a' ≤ c && c ≤ ch 'f') || c == ch '_'

def isBaseLetter (c : UInt8) : Bool :=
  [ch 'b', ch 'B', ch 'd', ch 'D', ch 'o', ch 'O', ch 'x', ch 'X'].contains c

/-- `[0-9A-Fa-f_]+` as the rest of the literal. -/
def matchDigits (sized : Option (Bytes × UInt8)) (base : Option UInt8) (s : Bytes) :
    Option NumberMatch :=
  if s ≠ [] ∧ s.all isHexOrUnderscore then some { sized := sized, base := base, digits := s }
  else none

/-- `(0[bBdDoOxX])?([0-9A-Fa-f_]+)` as the rest of the literal. -/
def matchBase (sized : Option (Bytes × UInt8)) (s : Bytes) : Option NumberMatch :=
  match s with
  | zero :: letter :: digits =>
    if zero = ch '0' ∧ isBaseLetter letter then
      (matchDigits sized (some letter) digits).or (matchDigits sized none s)
    else
      matchDigits sized none s
  | _ => matchDigits sized none s

/-- `(([0-9]+)([sw]))?(0[bBdDoOxX])?([0-9A-Fa-f_]+)`. -/
def matchNumber (s : Bytes) : Option NumberMatch :=
  match s.dropWhile isdigit with
  | c :: rest =>
    if s.takeWhile isdigit ≠ [] ∧ (c = ch 's' ∨ c = ch 'w') then
      matchBase (some (s.takeWhile isdigit, c)) rest
    else
      matchBase none s
  | [] => matchBase none s

def numberBase (sm : NumberMatch) : Nat :=
  match sm.base with
  | none => 10
  | some letter =>
    if letter = ch 'b' ∨ letter = ch 'B' then 2
    else if letter = ch 'd' ∨ letter = ch 'D' then 10
    else if letter = ch 'o' ∨ letter = ch 'O' then 8
    else 16

/-- `[01_]+`, `[0-7_]+`, `[0-9_]+` and `[0-9A-Fa-f_]+`. -/
def isDigitOfBase (base : Nat) (c : UInt8) : Bool :=
  c == ch '_' ||
    (if base = 16 then isHexOrUnderscore c else isdigit c && c.toNat - 48 < base)

/-- The value of the digits, cut to the width.  A shift takes its count modulo
32, as the hardware does. -/
def setValue (sm : NumberMatch) (mask : Int32) (isSigned : Bool) (lx : Lexer) : Outcome :=
  let base := numberBase sm
  if sm.digits.all (isDigitOfBase base) then
    match stoi sm.digits base with
    | .error error => (.error error, lx)
    | .ok n =>
      let value := mask &&& Int32.ofInt n
      let value :=
        if isSigned then
          (value &&& (mask >>> 1)) - (value &&& (1 <<< (lx.width - 1)))
        else value
      (.ok .tNumber, { lx with value := value })
  else
    (.ok .tUnknown, lx)

/-- `read_number` after the characters are collected. -/
def evalNumber (numstr : Bytes) (lx : Lexer) : Outcome :=
  match matchNumber numstr with
  | none => (.ok .tUnknown, lx)
  | some sm =>
    match sm.sized with
    | none => setValue sm (-1) false lx
    | some (digits, letter) =>
      match stoi digits 10 with
      | .error error => (.error error, lx)
      | .ok n =>
        let lx := { lx with width := Int32.ofInt n }
        let isSigned := letter == ch 's'
        if isSigned && lx.width < 2 then (.ok .tUnknown, lx)
        else setValue sm ((1 <<< lx.width) - 1) isSigned lx

def readNumber (lx : Lexer) : Outcome :=
  let (numstr, lx) := numberLoop [lx.last] lx.advance
  evalNumber numstr lx

/-! ## Operators and the rest -/

/-- An operator that may go on with one more character. -/
def follow (lx : Lexer) (c : Char) (long short : Token) : Token × Lexer :=
  if lx.last = ch c then (long, lx.advance) else (short, lx)

/-- The cases of the switch in `read_other` that do not skip or collect text.
`prev` is the first character, which is already consumed. -/
def readOperator (prev : UInt8) (lx : Lexer) : Token × Lexer :=
  match Char.ofUInt8 prev with
  | '!' => lx.follow '=' .tNe .tNot
  | '%' => (.tMod, lx)
  | '&' =>
    if lx.last = ch '&' then lx.advance.follow '&' .tMask .tAnd
    else (.tBitAnd, lx)
  | '(' => (.tLParen, lx)
  | ')' => (.tRParen, lx)
  | '*' => (.tMul, lx)
  | '+' => lx.follow '+' .tPp .tPlus
  | ',' => (.tComma, lx)
  | '-' => (.tMinus, lx)
  | '.' => lx.follow '.' .tRange .tDot
  | '/' => (.tDiv, lx)
  | ':' => (.tColon, lx)
  | ';' => (.tSemicolon, lx)
  | '<' =>
    if lx.last = ch '<' then (.tShl, lx.advance)
    else lx.follow '=' .tLe .tLAngle
  | '=' => lx.follow '=' .tEq .tAssign
  | '>' => lx.follow '=' .tGe .tRAngle
  | '?' => (.tQuestion, lx)
  | '@' => if lx.last = ch 'p' then lx.readPragma else (.tAt, lx)
  | '[' => (.tLBracket, lx)
  | ']' => (.tRBracket, lx)
  | '^' => (.tBitXor, lx)
  | '{' => (.tLBrace, lx)
  | '|' =>
    if lx.last = ch '+' then lx.advance.follow '|' .tPlusSat .tUnknown
    else if lx.last = ch '-' then lx.advance.follow '|' .tMinusSat .tUnknown
    else lx.follow '|' .tOr .tBitOr
  | '}' => (.tRBrace, lx)
  | '~' => (.tComplement, lx)
  | _ => (.tUnknown, lx)

/-- The switch of `read_other` over the character it has just consumed.  `next` is
the call it makes after a comment or a line. -/
def readSwitch (fuel : Nat) (next : Lexer → Option Outcome) (prev : UInt8) (lx : Lexer) :
    Option Outcome :=
  if prev = ch '"' then some (.ok lx.readString.1, lx.readString.2)
  else if prev = ch '#' then
    if lx.readLocation.last = EOF then some (.ok .tEnd, lx.readLocation)
    else next lx.readLocation
  else if prev = ch '/' ∧ (lx.last = ch '/' ∨ lx.last = ch '*') then
    (lx.readComment fuel).bind next
  else some (.ok (readOperator prev lx).1, (readOperator prev lx).2)

def readOther (fuel : Nat) (next : Lexer → Option Outcome) (lx : Lexer) : Option Outcome :=
  readSwitch fuel next lx.last lx.advance

/-- The choice of `next` once the white space is skipped. -/
def readToken (fuel : Nat) (next : Lexer → Option Outcome) (lx : Lexer) : Option Outcome :=
  if lx.last = EOF then some (.ok .tEnd, lx)
  else if isalpha lx.last ∨ lx.last = ch '_' then
    some (.ok lx.readIdentifier.1, lx.readIdentifier.2)
  else if isdigit lx.last then some lx.readNumber
  else readOther fuel next lx

/-- `next`, with a bound on the comments it skips and on their lengths. -/
def next : Nat → Lexer → Option Outcome
  | 0, _ => none
  | fuel + 1, lx => readToken fuel (next fuel) lx.skipSpaces

/-- A call of `next` completes with an outcome: some bound is large enough. -/
def Completes (lx : Lexer) (outcome : Outcome) : Prop := ∃ fuel, next fuel lx = some outcome

/-! ## The bound does not matter -/

theorem blockLoop_succ {fuel : Nat} {lx lx' : Lexer} (h : blockLoop fuel lx = some lx') :
    blockLoop (fuel + 1) lx = some lx' := by
  induction fuel generalizing lx with
  | zero => cases h
  | succ fuel ih =>
    rw [blockLoop] at h
    rw [blockLoop]
    split at h
    · rename_i hne
      rw [if_pos hne]
      exact ih h
    · rename_i hne
      rw [if_neg hne]
      exact h

theorem readComment_succ {fuel : Nat} {lx lx' : Lexer} (h : lx.readComment fuel = some lx') :
    lx.readComment (fuel + 1) = some lx' := by
  unfold readComment at h ⊢
  split at h
  · rename_i hl
    rw [if_pos hl]
    exact h
  · rename_i hl
    rw [if_neg hl]
    obtain ⟨lx₁, h₁, rfl⟩ := Option.map_eq_some_iff.mp h
    rw [blockLoop_succ h₁, Option.map_some]

theorem readSwitch_succ {fuel : Nat} {next next' : Lexer → Option Outcome} {prev : UInt8}
    {lx : Lexer} {o : Outcome} (hnext : ∀ lx o, next lx = some o → next' lx = some o)
    (h : readSwitch fuel next prev lx = some o) :
    readSwitch (fuel + 1) next' prev lx = some o := by
  unfold readSwitch at h ⊢
  by_cases hquote : prev = ch '"'
  · rw [if_pos hquote] at h ⊢
    exact h
  rw [if_neg hquote] at h ⊢
  by_cases hhash : prev = ch '#'
  · rw [if_pos hhash] at h ⊢
    by_cases hend : lx.readLocation.last = EOF
    · rw [if_pos hend] at h ⊢
      exact h
    · rw [if_neg hend] at h ⊢
      exact hnext _ _ h
  rw [if_neg hhash] at h ⊢
  by_cases hcomment : prev = ch '/' ∧ (lx.last = ch '/' ∨ lx.last = ch '*')
  · rw [if_pos hcomment] at h ⊢
    obtain ⟨lx₁, hc, hn⟩ := Option.bind_eq_some_iff.mp h
    rw [readComment_succ hc, Option.bind_some]
    exact hnext _ _ hn
  · rw [if_neg hcomment] at h ⊢
    exact h

theorem next_succ {fuel : Nat} {lx : Lexer} {o : Outcome} (h : next fuel lx = some o) :
    next (fuel + 1) lx = some o := by
  induction fuel generalizing lx o with
  | zero => cases h
  | succ fuel ih =>
    rw [next, readToken] at h ⊢
    by_cases hend : lx.skipSpaces.last = EOF
    · rw [if_pos hend] at h ⊢
      exact h
    rw [if_neg hend] at h ⊢
    by_cases hword : isalpha lx.skipSpaces.last ∨ lx.skipSpaces.last = ch '_'
    · rw [if_pos hword] at h ⊢
      exact h
    rw [if_neg hword] at h ⊢
    by_cases hnumber : isdigit lx.skipSpaces.last
    · rw [if_pos hnumber] at h ⊢
      exact h
    rw [if_neg hnumber] at h ⊢
    exact readSwitch_succ (fun _ _ => ih) h

theorem next_le {fuel fuel' : Nat} {lx : Lexer} {outcome : Outcome}
    (h : next fuel lx = some outcome) (hle : fuel ≤ fuel') : next fuel' lx = some outcome := by
  induction hle with
  | refl => exact h
  | step _ ih => exact next_succ ih

theorem Completes.unique {lx : Lexer} {o o' : Outcome} (h : Completes lx o)
    (h' : Completes lx o') : o = o' := by
  obtain ⟨n, hn⟩ := h
  obtain ⟨m, hm⟩ := h'
  have hn' := next_le hn (Nat.le_max_left n m)
  have hm' := next_le hm (Nat.le_max_right n m)
  rw [hn'] at hm'
  exact Option.some.inj hm'

end Lexer

end P4LS
