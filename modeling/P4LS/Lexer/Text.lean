import P4LS.Lexer.Scan

/-!
# Tokens of a text

The lexer as a function of the text.  `tokenStart` drops what stands before a
token the way the lexer skips it, `firstToken` reads one token, and `tokens` lists
what a caller can tell of the tokens of a text.  A literal without a width leaves
the width of the lexer as it is, so the width is handed along.
-/

namespace P4LS

open Bytes

namespace Lexer

/-! ## What stands before a token -/

/-- The text from its first token on.  `none` where a block comment before it is not
closed. -/
def tokenStart : Bytes → Option Bytes
  | [] => some []
  | c :: s =>
    if isspace c then tokenStart s
    else if c = ch '#' then tokenStart (afterLine s.tail)
    else if c = ch '/' ∧ s.head? = some (ch '/') then tokenStart (afterLine s.tail)
    else if c = ch '/' ∧ s.head? = some (ch '*') then
      match _h : blockEnd false s.tail with
      | none => none
      | some t => tokenStart t
    else some (c :: s)
termination_by s => s.length
decreasing_by
  all_goals have htail := (List.tail_suffix s).length_le
  · exact Nat.lt_succ_self _
  · have := (afterLine_suffix s.tail).length_le
    rw [List.length_cons]
    omega
  · have := (afterLine_suffix s.tail).length_le
    rw [List.length_cons]
    omega
  · have := (blockEnd_suffix _h).length_le
    rw [List.length_cons]
    omega

theorem tokenStart_nil : tokenStart [] = some [] := by rw [tokenStart]

theorem tokenStart_space {c : UInt8} (h : isspace c = true) (s : Bytes) :
    tokenStart (c :: s) = tokenStart s := by
  rw [tokenStart, if_pos h]

theorem tokenStart_dropWhile (s : Bytes) : tokenStart (s.dropWhile isspace) = tokenStart s := by
  induction s with
  | nil => rfl
  | cons c s ih =>
    by_cases h : isspace c = true
    · rw [List.dropWhile_cons_of_pos h, ih, tokenStart_space h]
    · rw [List.dropWhile_cons_of_neg h]

theorem tokenStart_location (s : Bytes) :
    tokenStart (ch '#' :: s) = tokenStart (afterLine s.tail) := by
  rw [tokenStart, if_neg (by decide), if_pos rfl]

theorem tokenStart_line (s : Bytes) :
    tokenStart (ch '/' :: ch '/' :: s) = tokenStart (afterLine s) := by
  rw [tokenStart, if_neg (by decide), if_neg (by decide), if_pos ⟨rfl, rfl⟩, List.tail_cons]

theorem tokenStart_block (s : Bytes) :
    tokenStart (ch '/' :: ch '*' :: s) = (blockEnd false s).bind tokenStart := by
  rw [tokenStart, if_neg (by decide), if_neg (by decide),
    if_neg (by simp [show ch '*' ≠ ch '/' by decide]), if_pos ⟨rfl, rfl⟩]
  split
  · rename_i h
    rw [List.tail_cons] at h
    rw [h]
    rfl
  · rename_i t h
    rw [List.tail_cons] at h
    rw [h]
    rfl

/-- A character at which nothing is skipped. -/
def startsToken (c : UInt8) : Bool := !isspace c && c != ch '#'

/-- A text that starts with a token. -/
theorem tokenStart_token {c : UInt8} {s : Bytes} (h : startsToken c = true)
    (hcomment : ¬(c = ch '/' ∧ (s.head? = some (ch '/') ∨ s.head? = some (ch '*')))) :
    tokenStart (c :: s) = some (c :: s) := by
  simp only [startsToken, Bool.and_eq_true, Bool.not_eq_true', bne_iff_ne, ne_eq] at h
  rw [tokenStart, h.1, if_neg Bool.false_ne_true, if_neg h.2,
    if_neg (fun hc => hcomment ⟨hc.1, .inl hc.2⟩),
    if_neg (fun hc => hcomment ⟨hc.1, .inr hc.2⟩)]

theorem startsToken_of_isWordChar {c : UInt8} (h : isWordChar c = true) :
    startsToken c = true := by
  rw [startsToken, isspace_of_isWordChar h]
  simpa using ne_of_class h (show isWordChar (ch '#') = false by decide)

theorem tokenStart_suffix {s t : Bytes} (h : tokenStart s = some t) : t <:+ s := by
  fun_induction tokenStart s with
  | case1 =>
    cases h
    exact List.suffix_rfl
  | case2 c s hspace ih => exact (ih h).trans (List.suffix_cons c s)
  | case3 s _ ih =>
    exact (ih h).trans ((afterLine_suffix _).trans ((List.tail_suffix s).trans
      (List.suffix_cons _ s)))
  | case4 c s _ _ _ ih =>
    exact (ih h).trans ((afterLine_suffix _).trans ((List.tail_suffix s).trans
      (List.suffix_cons c s)))
  | case5 => cases h
  | case6 c s _ _ _ _ t' ht ih =>
    exact (ih h).trans ((blockEnd_suffix ht).trans ((List.tail_suffix s).trans
      (List.suffix_cons c s)))
  | case7 =>
    cases h
    exact List.suffix_rfl

/-! ## One token -/

/-- What a caller can tell of a token: its id, the text of a word or a string, the value and
the width of a number. -/
structure Observed where
  kind : Except ConversionError Token
  text : Option Bytes
  number : Option (Int32 × Int32)
  deriving DecidableEq

/-- The tokens whose text is collected: words and strings. -/
def hasText (token : Token) : Bool :=
  token == .tIdentifier || token == .tStringLiteral || keywords.any (·.2 == token)

def observe (o : Outcome) : Observed :=
  { kind := o.1
    text := match o.1 with
      | .ok token => if hasText token then some o.2.text else none
      | .error _ => none
    number := match o.1 with
      | .ok .tNumber => some (o.2.value, o.2.width)
      | _ => none }

/-- A token without a text and a value, such as an operator and the end of the input. -/
def Observed.bare (token : Token) : Observed := { kind := .ok token, text := none, number := none }

/-- Neither a word or a string, nor a number, nor the end of the input. -/
def isBare (token : Token) : Bool := !hasText token && token != .tNumber && token != .tEnd

/-- The text `read_string` collects. -/
def stringBody : Bytes → Bytes
  | [] => []
  | [c] => if c = ch '"' ∨ c = ch '\\' then [] else [c]
  | c :: d :: s =>
    if c = ch '"' then []
    else if c = ch '\\' then c :: d :: stringBody s
    else c :: stringBody (d :: s)

/-- The string behind an opening quote, and what is pending then. -/
def stringToken (s : Bytes) : Observed :=
  if stringEnd s = [] then .bare .tUnknown
  else { kind := .ok .tStringLiteral, text := some (stringBody s), number := none }

/-- The word at the start of a text. -/
def wordSeen (text : Bytes) : Observed :=
  { kind := .ok (wordToken text), text := some text, number := none }

/-- One more character of an operator, on the text. -/
def followText (s : Bytes) (c : Char) (long short : Token) : Token × Bytes :=
  if s.head? = some (ch c) then (long, s.tail) else (short, s)

/-- `readOperator` on the text behind the first character. -/
def munch (prev : UInt8) (s : Bytes) : Token × Bytes :=
  match Char.ofUInt8 prev with
  | '!' => followText s '=' .tNe .tNot
  | '%' => (.tMod, s)
  | '&' =>
    if s.head? = some (ch '&') then followText s.tail '&' .tMask .tAnd else (.tBitAnd, s)
  | '(' => (.tLParen, s)
  | ')' => (.tRParen, s)
  | '*' => (.tMul, s)
  | '+' => followText s '+' .tPp .tPlus
  | ',' => (.tComma, s)
  | '-' => (.tMinus, s)
  | '.' => followText s '.' .tRange .tDot
  | '/' => (.tDiv, s)
  | ':' => (.tColon, s)
  | ';' => (.tSemicolon, s)
  | '<' =>
    if s.head? = some (ch '<') then (.tShl, s.tail) else followText s '=' .tLe .tLAngle
  | '=' => followText s '=' .tEq .tAssign
  | '>' => followText s '=' .tGe .tRAngle
  | '?' => (.tQuestion, s)
  | '@' => if s.head? = some (ch 'p') then (.tEndPragma, s) else (.tAt, s)
  | '[' => (.tLBracket, s)
  | ']' => (.tRBracket, s)
  | '^' => (.tBitXor, s)
  | '{' => (.tLBrace, s)
  | '|' =>
    if s.head? = some (ch '+') then followText s.tail '|' .tPlusSat .tUnknown
    else if s.head? = some (ch '-') then followText s.tail '|' .tMinusSat .tUnknown
    else followText s '|' .tOr .tBitOr
  | '}' => (.tRBrace, s)
  | '~' => (.tComplement, s)
  | _ => (.tUnknown, s)

/-- A lexer constructed over an input, with the width an earlier literal left. -/
def fresh (width : Int32) (input : Bytes) : Lexer := { start input with width := width }

/-- The token that starts with `c`: what is seen of it, the width it leaves, and the text
behind it. -/
def firstToken (width : Int32) (c : UInt8) (s : Bytes) : Observed × Int32 × Bytes :=
  if isWordStart c then (wordSeen (c :: s.takeWhile isWordChar), width, s.dropWhile isWordChar)
  else if isdigit c then
    let o := evalNumber (c :: s.takeWhile isNumberChar) (fresh width [])
    (observe o, o.2.width, s.dropWhile isNumberChar)
  else if c = ch '"' then (stringToken s, width, stringEnd s)
  else (.bare (munch c s).1, width, (munch c s).2)

theorem followText_suffix (s : Bytes) (c : Char) (long short : Token) :
    (followText s c long short).2 <:+ s := by
  unfold followText
  split
  · exact List.tail_suffix s
  · exact List.suffix_rfl

theorem munch_suffix (prev : UInt8) (s : Bytes) : (munch prev s).2 <:+ s := by
  have hnext {c : Char} {long short : Token} : (followText s.tail c long short).2 <:+ s :=
    (followText_suffix ..).trans (List.tail_suffix s)
  unfold munch
  split
  case h_3 =>
    split
    · exact hnext
    · exact List.suffix_rfl
  case h_14 =>
    split
    · exact List.tail_suffix s
    · exact followText_suffix ..
  case h_18 => split <;> exact List.suffix_rfl
  case h_23 =>
    split
    · exact hnext
    · split
      · exact hnext
      · exact followText_suffix ..
  all_goals first | exact List.suffix_rfl | exact followText_suffix ..

theorem isBare_followText {long short : Token} (hl : isBare long = true)
    (hs : isBare short = true) (s : Bytes) (c : Char) :
    isBare (followText s c long short).1 = true := by
  unfold followText
  split
  · exact hl
  · exact hs

theorem isBare_munch (prev : UInt8) (s : Bytes) : isBare (munch prev s).1 = true := by
  unfold munch
  split
  case h_3 =>
    split
    · exact isBare_followText rfl rfl _ _
    · rfl
  case h_14 =>
    split
    · rfl
    · exact isBare_followText rfl rfl _ _
  case h_18 => split <;> rfl
  case h_23 =>
    split
    · exact isBare_followText rfl rfl _ _
    · split <;> exact isBare_followText rfl rfl _ _
  all_goals first | rfl | exact isBare_followText rfl rfl _ _

theorem setValue_kind {sm : NumberMatch} {mask : Int32} {isSigned : Bool} {lx : Lexer}
    {token : Token} (h : (setValue sm mask isSigned lx).1 = .ok token) :
    token = .tNumber ∨ token = .tUnknown := by
  unfold setValue at h
  simp only at h
  split at h
  · split at h
    · cases h
    · exact .inl (Except.ok.inj h).symm
  · exact .inr (Except.ok.inj h).symm

theorem evalNumber_kind {numstr : Bytes} {lx : Lexer} {token : Token}
    (h : (evalNumber numstr lx).1 = .ok token) : token = .tNumber ∨ token = .tUnknown := by
  unfold evalNumber at h
  split at h
  · exact .inr (Except.ok.inj h).symm
  · split at h
    · exact setValue_kind h
    · split at h
      · cases h
      · simp only at h
        split at h
        · exact .inr (Except.ok.inj h).symm
        · exact setValue_kind h

/-- No token is the end of the input. -/
theorem firstToken_ne_end (width : Int32) (c : UInt8) (s : Bytes) :
    (firstToken width c s).1 ≠ .bare .tEnd := by
  unfold firstToken
  split
  · exact fun h => Option.some_ne_none _ (congrArg Observed.text h)
  split
  · intro h
    rcases evalNumber_kind (congrArg Observed.kind h) with hkind | hkind
    · exact Token.noConfusion hkind
    · exact Token.noConfusion hkind
  split
  · unfold stringToken
    split
    · exact fun h => Token.noConfusion (Except.ok.inj (congrArg Observed.kind h))
    · exact fun h => Option.some_ne_none _ (congrArg Observed.text h)
  · intro h
    have hkind : (munch c s).1 = .tEnd := Except.ok.inj (congrArg Observed.kind h)
    have hbare := isBare_munch c s
    rw [hkind] at hbare
    exact Bool.false_ne_true hbare

theorem firstToken_suffix (width : Int32) (c : UInt8) (s : Bytes) :
    (firstToken width c s).2.2 <:+ s := by
  unfold firstToken
  split
  · exact List.dropWhile_suffix _
  split
  · exact List.dropWhile_suffix _
  split
  · exact stringEnd_suffix s
  · exact munch_suffix c s

/-! ## All tokens -/

/-- What is seen of the tokens of a text, and whether its end is reached: behind a comment
that is not closed it is not. -/
def tokens (width : Int32) (s : Bytes) : List Observed × Bool :=
  match _h : tokenStart s with
  | none => ([], false)
  | some [] => ([], true)
  | some (c :: t) =>
    let later := tokens (firstToken width c t).2.1 (firstToken width c t).2.2
    ((firstToken width c t).1 :: later.1, later.2)
termination_by s.length
decreasing_by
  have hstart := (tokenStart_suffix _h).length_le
  have hrest := (firstToken_suffix width c t).length_le
  rw [List.length_cons] at hstart
  omega

theorem tokens_none {width : Int32} {s : Bytes} (h : tokenStart s = none) :
    tokens width s = ([], false) := by
  rw [tokens]
  split <;> simp_all

theorem tokens_nil {width : Int32} {s : Bytes} (h : tokenStart s = some []) :
    tokens width s = ([], true) := by
  rw [tokens]
  split <;> simp_all

theorem tokens_cons {width : Int32} {s t : Bytes} {c : UInt8} (h : tokenStart s = some (c :: t)) :
    tokens width s =
      ((firstToken width c t).1 :: (tokens (firstToken width c t).2.1 (firstToken width c t).2.2).1,
        (tokens (firstToken width c t).2.1 (firstToken width c t).2.2).2) := by
  rw [tokens]
  split <;> simp_all

/-- The tokens are those from the first one on. -/
theorem tokens_congr {width : Int32} {s s' : Bytes} (h : tokenStart s = tokenStart s') :
    tokens width s = tokens width s' := by
  cases hs : tokenStart s with
  | none => rw [tokens_none hs, tokens_none (h ▸ hs)]
  | some t =>
    cases t with
    | nil => rw [tokens_nil hs, tokens_nil (h ▸ hs)]
    | cons c t => rw [tokens_cons hs, tokens_cons (s := s') (h ▸ hs)]

theorem tokens_eq_nil_iff {width : Int32} {s : Bytes} :
    tokens width s = ([], true) ↔ tokenStart s = some [] := by
  constructor
  · intro h
    cases hs : tokenStart s with
    | none =>
      rw [tokens_none hs] at h
      cases h
    | some t =>
      cases t with
      | nil => rfl
      | cons c t =>
        rw [tokens_cons hs] at h
        cases h
  · exact tokens_nil

end Lexer

end P4LS
