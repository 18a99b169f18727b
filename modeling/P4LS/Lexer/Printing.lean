import P4LS.Lexer.Scan
import Mathlib.Data.List.Forall2

/-!
# Printed tokens are read back

A list of words and operators, printed with white space between them, is read
back token by token.  The white space matters at one point only: the character
behind a token is no part of a longer one.
-/

namespace P4LS

open Bytes

namespace Lexer

/-! ## Printed tokens -/

/-- The characters that are tokens whatever follows. -/
def punctuators : List (Bytes × Token) :=
  [(str "%", .tMod), (str "(", .tLParen), (str ")", .tRParen), (str "*", .tMul),
   (str ",", .tComma), (str "-", .tMinus), (str "/", .tDiv), (str ":", .tColon),
   (str ";", .tSemicolon), (str "?", .tQuestion), (str "[", .tLBracket),
   (str "]", .tRBracket), (str "^", .tBitXor), (str "\x7b", .tLBrace), (str "\x7d", .tRBrace),
   (str "~", .tComplement)]

/-- The operators of one character and the same with one more. -/
def pairs : List (Bytes × Token) :=
  [(str "!=", .tNe), (str "!", .tNot), (str "++", .tPp), (str "+", .tPlus),
   (str "..", .tRange), (str ".", .tDot), (str "==", .tEq), (str "=", .tAssign),
   (str ">=", .tGe), (str ">", .tRAngle)]

/-- The operators that share a prefix with more than one other. -/
def families : List (Bytes × Token) :=
  [(str "&", .tBitAnd), (str "&&", .tAnd), (str "&&&", .tMask), (str "<", .tLAngle),
   (str "<<", .tShl), (str "<=", .tLe), (str "@", .tAt), (str "|", .tBitOr), (str "||", .tOr),
   (str "|+|", .tPlusSat), (str "|-|", .tMinusSat)]

/-- The operators and punctuators `read_other` returns. -/
def operators : List (Bytes × Token) := punctuators ++ pairs ++ families

/-- `[A-Za-z_][A-Za-z0-9_]*` -/
def isWord : Bytes → Bool
  | [] => false
  | c :: s => isWordStart c && s.all isWordChar

inductive Lexeme where
  | word (text : Bytes) (h : isWord text = true)
  | operator (text : Bytes) (token : Token) (h : (text, token) ∈ operators)

def Lexeme.text : Lexeme → Bytes
  | .word text _ => text
  | .operator text _ _ => text

def Lexeme.token : Lexeme → Token
  | .word text _ => wordToken text
  | .operator _ token _ => token

def Blank (gap : Bytes) : Prop := ∀ c ∈ gap, isspace c = true

instance (gap : Bytes) : Decidable (Blank gap) := decidableForallMem (isspace · = true) gap

/-- Tokens with white space before each of them, and possibly behind the last. -/
inductive Spaced : List Lexeme → Bytes → Prop where
  | nil {gap : Bytes} (hgap : Blank gap) : Spaced [] gap
  | cons {gap s : Bytes} {ls : List Lexeme} (l : Lexeme) (hgap : Blank gap) (hne : gap ≠ [])
      (rest : Spaced ls s) : Spaced (l :: ls) (gap ++ l.text ++ s)

/-- Tokens with white space between them, and possibly at both ends. -/
inductive Printed : List Lexeme → Bytes → Prop where
  | nil {gap : Bytes} (hgap : Blank gap) : Printed [] gap
  | cons {gap s : Bytes} {ls : List Lexeme} (l : Lexeme) (hgap : Blank gap)
      (rest : Spaced ls s) : Printed (l :: ls) (gap ++ l.text ++ s)

/-- The call returned the kind of the token, and the text of a word. -/
def Reads (l : Lexeme) (o : Outcome) : Prop :=
  o.1 = .ok l.token ∧
    match l with
    | .word text _ => o.2.text = text
    | .operator _ _ _ => True

/-- The blank a lexer starts with goes before the first token. -/
theorem Printed.spaced {ls : List Lexeme} {input : Bytes} (h : Printed ls input) :
    Spaced ls (ch ' ' :: input) := by
  have hblank : ∀ {gap : Bytes}, Blank gap → Blank (ch ' ' :: gap) := fun hgap =>
    List.forall_mem_cons.mpr ⟨by decide, hgap⟩
  cases h with
  | nil hgap => exact .nil (hblank hgap)
  | cons l hgap rest => exact .cons l (hblank hgap) (List.cons_ne_nil _ _) rest

/-! ## Behind a token -/

/-- What is pending ends the token before it. -/
def Separated (s : Bytes) : Prop := ∀ c, s.head? = some c → isspace c = true

theorem Spaced.separated {ls : List Lexeme} {s : Bytes} (h : Spaced ls s) : Separated s := by
  intro c hc
  cases h with
  | nil hgap => exact hgap c (List.mem_of_head? hc)
  | @cons gap s ls l hgap hne rest =>
    cases gap with
    | nil => exact absurd rfl hne
    | cons d gap =>
      cases hc
      exact hgap _ List.mem_cons_self

theorem last_ne_of_separated {lx : Lexer} (hs : Separated lx.pending) {c : UInt8}
    (hspace : isspace c = false) (hne : c ≠ EOF) : lx.last ≠ c := by
  intro hlast
  have := hs c ((head?_pending_eq_some hne).mpr hlast)
  rw [hspace] at this
  cases this

theorem last_and_advance {lx : Lexer} (hc : lx.Clean) {c : UInt8} {s : Bytes}
    (hp : lx.pending = c :: s) : lx.last = c ∧ lx.advance.pending = s :=
  ⟨last_eq_of_pending hp, by rw [pending_advance hc, hp, List.tail_cons]⟩

theorem dropWhile_of_separated {p : UInt8 → Bool} (hp : ∀ c, isspace c = true → p c = false)
    {w s : Bytes} (hw : w.all p = true) (hs : Separated s) :
    (w ++ s).dropWhile p = s ∧ (w ++ s).takeWhile p = w := by
  rw [List.all_eq_true] at hw
  rw [List.dropWhile_append_of_pos hw, List.takeWhile_append_of_pos hw]
  cases s with
  | nil => simp
  | cons c s =>
    have hneg : ¬p c = true := by
      rw [hp c (hs c rfl)]
      exact Bool.false_ne_true
    rw [List.dropWhile_cons_of_neg hneg, List.takeWhile_cons_of_neg hneg, List.append_nil]
    exact ⟨rfl, rfl⟩

/-! ## Operators -/

theorem follow_long {lx : Lexer} (hc : lx.Clean) {c : Char} {s : Bytes}
    (hp : lx.pending = ch c :: s) (long short : Token) :
    (lx.follow c long short).1 = long ∧ (lx.follow c long short).2.pending = s := by
  obtain ⟨hlast, hadvance⟩ := last_and_advance hc hp
  rw [follow, if_pos hlast]
  exact ⟨rfl, hadvance⟩

theorem isspace_of_isOperatorTail {c : UInt8} (h : isOperatorTail c = true) :
    isspace c = false := by
  have hall : ∀ d ∈ [ch '=', ch '&', ch '+', ch '.', ch '<', ch '-', ch '|'],
      isspace d = false := by decide
  exact hall c (List.elem_iff.mp h)

theorem follow_short {lx : Lexer} {c : Char} {s : Bytes} (hp : lx.pending = s)
    (hs : Separated s) (hop : isOperatorTail (ch c) = true) (long short : Token) :
    (lx.follow c long short).1 = short ∧ (lx.follow c long short).2.pending = s := by
  have hspace : isspace (ch c) = false := isspace_of_isOperatorTail hop
  have hne : ch c ≠ EOF := by
    intro he
    rw [he] at hop
    revert hop
    decide
  rw [follow, if_neg (last_ne_of_separated (by rwa [hp]) hspace hne)]
  exact ⟨rfl, hp⟩

theorem ite_long {α : Type} {lx : Lexer} {c : UInt8} {s : Bytes} (hp : lx.pending = c :: s)
    (x y : α) : (if lx.last = c then x else y) = x := if_pos (last_eq_of_pending hp)

theorem ite_other {α : Type} {lx : Lexer} {c d : UInt8} {s : Bytes} (hp : lx.pending = d :: s)
    (hne : d ≠ c) (x y : α) : (if lx.last = c then x else y) = y :=
  if_neg (by rwa [last_eq_of_pending hp])

theorem ite_short {α : Type} {lx : Lexer} {c : UInt8} {s : Bytes} (hp : lx.pending = s)
    (hs : Separated s) (hc : (!isspace c && c != EOF) = true) (x y : α) :
    (if lx.last = c then x else y) = y := by
  simp only [Bool.and_eq_true, Bool.not_eq_true', bne_iff_ne, ne_eq] at hc
  exact if_neg (last_ne_of_separated (by rwa [hp]) hc.1 hc.2)

/-- Behind its first character an operator is read to its end and no further. -/
def ReadToEnd (entry : Bytes × Token) : Prop :=
  ∀ lx : Lexer, lx.Clean → ∀ s, Separated s → lx.pending = entry.1.tail ++ s →
    (readOperator (entry.1.headD 0) lx).1 = entry.2 ∧
      (readOperator (entry.1.headD 0) lx).2.pending = s

theorem readToEnd_punctuators : ∀ entry ∈ punctuators, ReadToEnd entry := by
  simp only [punctuators, List.forall_mem_cons, List.not_mem_nil, false_implies, implies_true,
    and_true]
  refine ⟨?_, ?_, ?_, ?_, ?_, ?_, ?_, ?_, ?_, ?_, ?_, ?_, ?_, ?_, ?_, ?_⟩
  all_goals exact fun lx _ s _ hp => ⟨rfl, hp⟩

theorem readToEnd_pairs : ∀ entry ∈ pairs, ReadToEnd entry := by
  simp only [pairs, List.forall_mem_cons, List.not_mem_nil, false_implies, implies_true,
    and_true]
  refine ⟨?_, ?_, ?_, ?_, ?_, ?_, ?_, ?_, ?_, ?_⟩
  all_goals intro lx hc s hs hp
  all_goals first
    | exact follow_long hc hp _ _
    | exact follow_short hp hs (by decide) _ _

theorem readToEnd_and :
    ReadToEnd (str "&", .tBitAnd) ∧ ReadToEnd (str "&&", .tAnd) ∧
      ReadToEnd (str "&&&", .tMask) := by
  have hunfold : ∀ lx : Lexer, readOperator (ch '&') lx =
      if lx.last = ch '&' then lx.advance.follow '&' .tMask .tAnd else (.tBitAnd, lx) :=
    fun lx => rfl
  refine ⟨fun lx hc s hs (hp : lx.pending = s) => ?_,
    fun lx hc s hs (hp : lx.pending = ch '&' :: s) => ?_,
    fun lx hc s hs (hp : lx.pending = ch '&' :: ch '&' :: s) => ?_⟩ <;>
    show (readOperator (ch '&') lx).1 = _ ∧ (readOperator (ch '&') lx).2.pending = _ <;>
    rw [hunfold]
  · rw [ite_short hp hs (by decide)]
    exact ⟨rfl, hp⟩
  · rw [ite_long hp]
    exact follow_short (last_and_advance hc hp).2 hs (by decide) _ _
  · rw [ite_long hp]
    exact follow_long hc.advance (last_and_advance hc hp).2 _ _

theorem readToEnd_angle :
    ReadToEnd (str "<", .tLAngle) ∧ ReadToEnd (str "<<", .tShl) ∧
      ReadToEnd (str "<=", .tLe) := by
  have hunfold : ∀ lx : Lexer, readOperator (ch '<') lx =
      if lx.last = ch '<' then (.tShl, lx.advance) else lx.follow '=' .tLe .tLAngle :=
    fun lx => rfl
  refine ⟨fun lx hc s hs (hp : lx.pending = s) => ?_,
    fun lx hc s hs (hp : lx.pending = ch '<' :: s) => ?_,
    fun lx hc s hs (hp : lx.pending = ch '=' :: s) => ?_⟩ <;>
    show (readOperator (ch '<') lx).1 = _ ∧ (readOperator (ch '<') lx).2.pending = _ <;>
    rw [hunfold]
  · rw [ite_short hp hs (by decide)]
    exact follow_short hp hs (by decide) _ _
  · rw [ite_long hp]
    exact ⟨rfl, (last_and_advance hc hp).2⟩
  · rw [ite_other hp (by decide)]
    exact follow_long hc hp _ _

theorem readToEnd_at : ReadToEnd (str "@", .tAt) := by
  intro lx hc s hs (hp : lx.pending = s)
  have hunfold : readOperator (ch '@') lx =
      if lx.last = ch 'p' then lx.readPragma else (.tAt, lx) := rfl
  show (readOperator (ch '@') lx).1 = _ ∧ (readOperator (ch '@') lx).2.pending = _
  rw [hunfold, ite_short hp hs (by decide)]
  exact ⟨rfl, hp⟩

theorem readToEnd_bar :
    ReadToEnd (str "|", .tBitOr) ∧ ReadToEnd (str "||", .tOr) ∧
      ReadToEnd (str "|+|", .tPlusSat) ∧ ReadToEnd (str "|-|", .tMinusSat) := by
  have hunfold : ∀ lx : Lexer, readOperator (ch '|') lx =
      if lx.last = ch '+' then lx.advance.follow '|' .tPlusSat .tUnknown
      else if lx.last = ch '-' then lx.advance.follow '|' .tMinusSat .tUnknown
      else lx.follow '|' .tOr .tBitOr := fun lx => rfl
  refine ⟨fun lx hc s hs (hp : lx.pending = s) => ?_,
    fun lx hc s hs (hp : lx.pending = ch '|' :: s) => ?_,
    fun lx hc s hs (hp : lx.pending = ch '+' :: ch '|' :: s) => ?_,
    fun lx hc s hs (hp : lx.pending = ch '-' :: ch '|' :: s) => ?_⟩ <;>
    show (readOperator (ch '|') lx).1 = _ ∧ (readOperator (ch '|') lx).2.pending = _ <;>
    rw [hunfold]
  · rw [ite_short hp hs (by decide), ite_short hp hs (by decide)]
    exact follow_short hp hs (by decide) _ _
  · rw [ite_other hp (by decide), ite_other hp (by decide)]
    exact follow_long hc hp _ _
  · rw [ite_long hp]
    exact follow_long hc.advance (last_and_advance hc hp).2 _ _
  · rw [ite_other hp (by decide), ite_long hp]
    exact follow_long hc.advance (last_and_advance hc hp).2 _ _

theorem readToEnd_operators {text : Bytes} {token : Token} (h : (text, token) ∈ operators) :
    ReadToEnd (text, token) := by
  rcases List.mem_append.mp h with h | h
  · rcases List.mem_append.mp h with h | h
    · exact readToEnd_punctuators _ h
    · exact readToEnd_pairs _ h
  · obtain ⟨hand, handand, hmask⟩ := readToEnd_and
    obtain ⟨hangle, hshl, hle⟩ := readToEnd_angle
    obtain ⟨hbar, hor, hplus, hminus⟩ := readToEnd_bar
    simp only [families, List.mem_cons, List.not_mem_nil, or_false] at h
    rcases h with h | h | h | h | h | h | h | h | h | h | h <;> rw [h]
    · exact hand
    · exact handand
    · exact hmask
    · exact hangle
    · exact hshl
    · exact hle
    · exact readToEnd_at
    · exact hbar
    · exact hor
    · exact hplus
    · exact hminus

/-! ## One token -/

/-- An operator starts as one, and only `/` as a comment might. -/
def startsOperator : Bytes → Bool
  | [] => false
  | c :: rest => isOperatorStart c && !isspace c && (c != ch '/' || rest == [])

theorem startsOperator_operators {text : Bytes} {token : Token}
    (h : (text, token) ∈ operators) : startsOperator text = true := by
  have hall : operators.all (fun entry => startsOperator entry.1) = true := by decide
  exact List.all_eq_true.mp hall _ h

theorem skipSpaces_printed {lx : Lexer} (hc : lx.Clean) {gap s : Bytes} {c : UInt8}
    (hp : lx.pending = gap ++ c :: s) (hgap : Blank gap) (hspace : isspace c = false) :
    lx.skipSpaces.pending = c :: s := by
  rw [pending_skipSpaces hc, hp, List.dropWhile_append_of_pos hgap,
    List.dropWhile_cons_of_neg (by rw [hspace]; exact Bool.false_ne_true)]

/-- A printed token is read as itself, up to the white space behind it. -/
theorem scan_printed {lx : Lexer} (hc : lx.Clean) (l : Lexeme) {gap s : Bytes}
    (hgap : Blank gap) (hs : Separated s) (hp : lx.pending = gap ++ l.text ++ s) :
    ∃ o, Scan lx o ∧ Reads l o ∧ o.2.pending = s := by
  have hclean := hc.skips (skips_skipSpaces lx)
  rw [List.append_assoc] at hp
  cases l with
  | word text hword =>
    cases text with
    | nil => cases hword
    | cons c w =>
      simp only [isWord, Bool.and_eq_true] at hword
      obtain ⟨hstart, hall⟩ := hword
      have hspace : isspace c = false := isspace_of_isWordStart hstart
      have hskip : lx.skipSpaces.pending = c :: (w ++ s) := skipSpaces_printed hc hp hgap hspace
      have hlast := last_eq_of_pending hskip
      obtain ⟨hpending, htext⟩ := readIdentifier_pending hclean (last_ne_eof_of_pending hskip)
      obtain ⟨hdrop, htake⟩ := dropWhile_of_separated (p := isWordChar)
        (fun _ => isWordChar_of_isspace) hall hs
      rw [hskip, List.tail_cons, hdrop] at hpending
      rw [hskip, List.tail_cons, htake, hlast] at htext
      refine ⟨_, .word (by rw [hlast]; exact hstart), ⟨?_, htext⟩, hpending⟩
      have htoken : lx.skipSpaces.readIdentifier.1 =
          wordToken lx.skipSpaces.readIdentifier.2.text := rfl
      rw [htoken, htext]
      rfl
  | operator text token hop =>
    have hstarts := startsOperator_operators hop
    cases text with
    | nil => cases hstarts
    | cons c rest =>
      simp only [startsOperator, Bool.and_eq_true, Bool.not_eq_true', Bool.or_eq_true,
        bne_iff_ne, ne_eq, beq_iff_eq] at hstarts
      obtain ⟨⟨hstart, hspace⟩, hslash⟩ := hstarts
      have hskip : lx.skipSpaces.pending = c :: (rest ++ s) :=
        skipSpaces_printed hc hp hgap hspace
      obtain ⟨hlast, hadvance⟩ := last_and_advance hclean hskip
      obtain ⟨htoken, hpending⟩ :=
        readToEnd_operators hop lx.skipSpaces.advance hclean.advance s hs hadvance
      refine ⟨_, .operator (by rw [hlast]; exact hstart) ?_, ⟨?_, trivial⟩, ?_⟩
      · rw [hlast]
        intro hcomment
        obtain ⟨hc', hnext⟩ := hcomment
        rw [hslash.resolve_left (fun h => h hc'), List.nil_append] at hadvance
        rcases hnext with h | h
        · exact last_ne_of_separated (by rwa [hadvance]) (by decide) (by decide) h
        · exact last_ne_of_separated (by rwa [hadvance]) (by decide) (by decide) h
      · rw [hlast]
        exact congrArg Except.ok htoken
      · rw [hlast]
        exact hpending

/-! ## Lists of tokens -/

/-- Printed text holds no byte that reads as the end of the input. -/
theorem eof_not_mem_text (l : Lexeme) : EOF ∉ l.text := by
  cases l with
  | word text hword =>
    intro hmem
    cases text with
    | nil => cases hmem
    | cons c w =>
      simp only [isWord, Bool.and_eq_true, List.all_eq_true] at hword
      rcases List.mem_cons.mp hmem with rfl | hw
      · exact absurd hword.1 (by decide)
      · exact absurd (hword.2 _ hw) (by decide)
  | operator text token hop =>
    have hall : operators.all (fun entry => !entry.1.contains EOF) = true := by decide
    have hentry : (!text.contains EOF) = true := List.all_eq_true.mp hall _ hop
    show EOF ∉ text
    simpa using hentry

theorem eof_not_mem_gap {gap : Bytes} (hgap : Blank gap) : EOF ∉ gap := fun hmem =>
  absurd (hgap EOF hmem) (by decide)

theorem Spaced.eof_not_mem {ls : List Lexeme} {s : Bytes} (h : Spaced ls s) : EOF ∉ s := by
  induction h with
  | nil hgap => exact eof_not_mem_gap hgap
  | cons l hgap _ _ ih =>
    simp only [List.mem_append, not_or]
    exact ⟨⟨eof_not_mem_gap hgap, eof_not_mem_text l⟩, ih⟩

theorem calls_of_spaced {ls : List Lexeme} {s : Bytes} (h : Spaced ls s) {lx : Lexer}
    (hc : lx.Clean) (hp : lx.pending = s) :
    ∃ os lx' lx'', Calls lx os lx' ∧ List.Forall₂ Reads ls os ∧
      Completes lx' (.ok .tEnd, lx'') := by
  induction h generalizing lx with
  | @nil gap hgap =>
    have hnil : lx.skipSpaces.pending = [] := by
      rw [pending_skipSpaces hc, hp, List.dropWhile_eq_nil_iff]
      exact hgap
    exact ⟨[], lx, lx.skipSpaces, .nil lx, .nil,
      completes_of_scan (.finish (pending_eq_nil_iff.mp hnil))⟩
  | @cons gap s ls l hgap _ rest ih =>
    obtain ⟨o, hscan, hreads, hpending⟩ := scan_printed hc l hgap rest.separated hp
    obtain ⟨os, lx', lx'', hcalls, hall, hend⟩ :=
      ih (hc.of_suffix hscan.rest_suffix) hpending
    exact ⟨o :: os, lx', lx'', .cons (completes_of_scan hscan) hcalls, .cons hreads hall, hend⟩

/-- Lexing undoes printing: repeated calls of `next` over a printed list of tokens return
the kinds of the tokens, with the text of every word, and then `T_END`. -/
theorem calls_of_printed {ls : List Lexeme} {input : Bytes} (h : Printed ls input) :
    ∃ os lx lx', Calls (start input) os lx ∧ List.Forall₂ Reads ls os ∧
      Completes lx (.ok .tEnd, lx') := by
  have hspaced := h.spaced
  have hclean : (start input).Clean := fun hmem =>
    hspaced.eof_not_mem (List.mem_cons_of_mem _ hmem)
  exact calls_of_spaced hspaced hclean (pending_start input)

theorem calls_of_printed_mask :
    ∃ os lx lx', Calls (start (str "parser &&& _\n")) os lx ∧
      List.Forall₂ Reads [.word (str "parser") (by decide), .operator (str "&&&") .tMask
        (by decide), .word (str "_") (by decide)] os ∧ Completes lx (.ok .tEnd, lx') :=
  calls_of_printed
    (show Printed _ ([] ++ str "parser" ++ (str " " ++ str "&&&" ++ (str " " ++ str "_" ++
        str "\n"))) from
      .cons _ (by decide)
        (.cons _ (by decide) (by decide)
          (.cons _ (by decide) (by decide)
            (.nil (by decide)))))

end Lexer

end P4LS
