import P4LS.Lexer.Next

/-!
# The pending text

`pending` is the text a lexer has still to read, its lookahead in front.  On a
text without the byte that reads as `EOF` every function of the lexer works on
the pending text as on a list: `advance` drops one character and each loop
drops a run of them.
-/

namespace P4LS

open Bytes

namespace Lexer

def pending (lx : Lexer) : Bytes :=
  if lx.last = EOF then [] else lx.last :: if lx.is.good then lx.is.rest else []

/-- No byte that is still to be extracted reads as `EOF`. -/
def Clean (lx : Lexer) : Prop := EOF ∉ lx.is.rest

theorem pending_of_eof {lx : Lexer} (h : lx.last = EOF) : lx.pending = [] := by
  rw [pending, if_pos h]

theorem pending_eq_nil_iff {lx : Lexer} : lx.pending = [] ↔ lx.last = EOF := by
  unfold pending
  split <;> simp_all

theorem last_eq (lx : Lexer) : lx.last = lx.pending.headD EOF := by
  unfold pending
  split <;> simp_all

theorem last_eq_of_pending {lx : Lexer} {c : UInt8} {s : Bytes} (h : lx.pending = c :: s) :
    lx.last = c := by
  rw [last_eq, h]
  rfl

theorem last_ne_eof_of_pending {lx : Lexer} {c : UInt8} {s : Bytes} (h : lx.pending = c :: s) :
    lx.last ≠ EOF := by
  intro heof
  rw [pending_of_eof heof] at h
  cases h

theorem head?_pending_eq_some {lx : Lexer} {c : UInt8} (hne : c ≠ EOF) :
    lx.pending.head? = some c ↔ lx.last = c := by
  unfold pending
  split
  · rename_i h
    rw [h]
    simp [hne.symm]
  · simp

theorem pending_start (input : Bytes) : (start input).pending = ch ' ' :: input := rfl

theorem eof_not_mem {s : Bytes} (h : Ascii s) : EOF ∉ s := fun hmem =>
  absurd (h EOF hmem) (by decide)

theorem clean_start {input : Bytes} (h : Ascii input) : (start input).Clean := eof_not_mem h

/-! ## One character -/

/-- What `is.get()` leaves, in terms of what was there. -/
theorem getLast_cases (lx : Lexer) (hlast : lx.last ≠ EOF) :
    (∃ c s, lx.is = Istream.ofBytes (c :: s) ∧ lx.getLast.last = c ∧
        lx.getLast.is = Istream.ofBytes s ∧ lx.pending = lx.last :: c :: s) ∨
      (lx.getLast.last = EOF ∧ lx.getLast.is.rest = lx.is.rest ∧ lx.pending = [lx.last]) := by
  by_cases hg : lx.is.good = true
  · have his := Istream.eq_ofBytes hg
    cases hr : lx.is.rest with
    | nil =>
      right
      rw [hr] at his
      simp [getLast, pending, his, hlast]
    | cons c s =>
      left
      rw [hr] at his
      exact ⟨c, s, his, by simp [getLast, his], by simp [getLast, his],
        by simp [pending, his, hlast]⟩
  · right
    rw [Bool.not_eq_true] at hg
    simp [getLast, Istream.get_of_not_good hg, pending, hlast, hg]

theorem getLast_suffix (lx : Lexer) : lx.getLast.is.rest <:+ lx.is.rest := by
  by_cases hg : lx.is.good = true
  · rw [getLast, Istream.eq_ofBytes hg]
    cases lx.is.rest with
    | nil => exact List.suffix_rfl
    | cons c s => exact List.suffix_cons c s
  · rw [Bool.not_eq_true] at hg
    have hrest : lx.getLast.is.rest = lx.is.rest := by rw [getLast, Istream.get_of_not_good hg]
    exact ⟨[], hrest⟩

theorem pending_getLast {lx : Lexer} (hc : lx.Clean) (hlast : lx.last ≠ EOF) :
    lx.getLast.pending = lx.pending.tail := by
  rcases getLast_cases lx hlast with ⟨c, s, his, hl, his', hp⟩ | ⟨hl, _, hp⟩
  · have hne : c ≠ EOF := by
      intro heof
      exact hc (by simp [his, heof])
    rw [hp, pending, hl, if_neg hne, his']
    rfl
  · rw [pending_of_eof hl, hp]
    rfl

theorem Clean.of_suffix {lx lx' : Lexer} (hc : lx.Clean) (h : lx'.is.rest <:+ lx.is.rest) :
    lx'.Clean := fun hmem => hc (h.subset hmem)

theorem advance_suffix (lx : Lexer) : lx.advance.is.rest <:+ lx.is.rest := by
  by_cases h : lx.last = EOF
  · have hrest : lx.advance.is.rest = lx.is.rest := by rw [advance_of_eof h]
    exact ⟨[], hrest⟩
  · rw [advance_is h]
    exact getLast_suffix lx

theorem Clean.getLast {lx : Lexer} (hc : lx.Clean) : lx.getLast.Clean :=
  hc.of_suffix (getLast_suffix lx)

theorem Clean.advance {lx : Lexer} (hc : lx.Clean) : lx.advance.Clean :=
  hc.of_suffix (advance_suffix lx)

theorem pending_congr {lx lx' : Lexer} (his : lx.is = lx'.is) (hlast : lx.last = lx'.last) :
    lx.pending = lx'.pending := by
  rw [pending, pending, his, hlast]

theorem pending_advance {lx : Lexer} (hc : lx.Clean) :
    lx.advance.pending = lx.pending.tail := by
  by_cases h : lx.last = EOF
  · rw [advance_of_eof h, pending_of_eof h]
    rfl
  · rw [pending_congr (advance_is h) (advance_last h)]
    exact pending_getLast hc h

theorem pending_eq_cons (lx : Lexer) (h : lx.last ≠ EOF) :
    lx.pending = lx.last :: lx.pending.tail := by
  rw [pending, if_neg h]
  rfl

/-! ## Runs of `advance` -/

/-- Some calls of `advance`, each made at a character that passes `p`. -/
inductive Skips (p : UInt8 → Bool) : Lexer → Lexer → Prop where
  | refl (lx : Lexer) : Skips p lx lx
  | step {lx lx' : Lexer} (h : p lx.last = true) (rest : Skips p lx.advance lx') :
      Skips p lx lx'

theorem Skips.trans {p : UInt8 → Bool} {lx₁ lx₂ lx₃ : Lexer} (h : Skips p lx₁ lx₂)
    (h' : Skips p lx₂ lx₃) : Skips p lx₁ lx₃ := by
  induction h with
  | refl _ => exact h'
  | step hp _ ih => exact .step hp (ih h')

theorem Clean.skips {p : UInt8 → Bool} {lx lx' : Lexer} (hc : lx.Clean) (h : Skips p lx lx') :
    lx'.Clean := by
  induction h with
  | refl _ => exact hc
  | step _ _ ih => exact ih hc.advance

theorem skips_skipSpaces (lx : Lexer) : Skips isspace lx lx.skipSpaces := by
  fun_induction skipSpaces lx with
  | case1 lx h ih => exact .step h ih
  | case2 lx h => exact .refl lx

theorem pending_skipSpaces {lx : Lexer} (hc : lx.Clean) :
    lx.skipSpaces.pending = lx.pending.dropWhile isspace := by
  fun_induction skipSpaces lx with
  | case1 lx h ih =>
    rw [ih hc.advance, pending_advance hc, pending_eq_cons _ (ne_eof_of_isspace h),
      List.tail_cons, List.dropWhile_cons_of_pos h]
  | case2 lx h =>
    unfold pending
    split
    · rfl
    · rw [List.dropWhile_cons_of_neg h]

theorem skips_numberLoop (numstr : Bytes) (lx : Lexer) :
    Skips isNumberChar lx (numberLoop numstr lx).2 := by
  fun_induction numberLoop numstr lx with
  | case1 numstr lx h ih => exact .step h ih
  | case2 numstr lx h => exact .refl lx

theorem skips_skipStars (lx : Lexer) : Skips (fun _ => true) lx lx.skipStars := by
  fun_induction skipStars lx with
  | case1 lx h ih => exact .step rfl ih
  | case2 lx h => exact .step rfl (.refl _)

theorem pending_skipStars {lx : Lexer} (hc : lx.Clean) :
    lx.skipStars.pending = lx.pending.tail.dropWhile (· == ch '*') := by
  fun_induction skipStars lx with
  | case1 lx h ih =>
    rw [ih hc.advance, ← pending_advance hc, pending_eq_cons _ (by rw [h]; decide), h,
      List.dropWhile_cons_of_pos (by simp), List.tail_cons]
  | case2 lx h =>
    rw [← pending_advance hc]
    unfold pending
    split
    · rfl
    · rw [List.dropWhile_cons_of_neg (by simpa using h)]

/-! ## Words and strings -/

theorem wordLoop_pending (lx : Lexer) (hc : lx.Clean) (hlast : lx.last ≠ EOF) :
    lx.wordLoop.pending = lx.pending.tail.dropWhile isWordChar ∧
      lx.wordLoop.text = lx.text ++ lx.pending.tail.takeWhile isWordChar := by
  fun_induction wordLoop lx with
  | case1 lx h ih =>
    have hne := ne_eof_of_isWordChar h
    have hp := pending_getLast hc hlast
    have hp' : lx.pending.tail = lx.getLast.last :: lx.getLast.pending.tail := by
      rw [← hp, pending, if_neg hne]
      rfl
    obtain ⟨ih1, ih2⟩ := ih hc.getLast hne
    rw [hp', List.dropWhile_cons_of_pos h, List.takeWhile_cons_of_pos h]
    exact ⟨ih1, ih2.trans (by simp [pending])⟩
  | case2 lx h =>
    have hp := pending_getLast hc hlast
    rw [← hp]
    unfold pending
    split
    · simp
    · simp [h]

@[simp] theorem pending_withText (lx : Lexer) (text : Bytes) :
    (lx.withText text).pending = lx.pending := rfl

theorem Clean.withText {lx : Lexer} (hc : lx.Clean) (text : Bytes) :
    (lx.withText text).Clean := hc

/-- What is pending after a string, its closing quote in front. -/
def stringEnd : Bytes → Bytes
  | [] => []
  | [c] => if c = ch '"' then [c] else []
  | c :: d :: s =>
    if c = ch '"' then c :: d :: s
    else if c = ch '\\' then stringEnd s
    else stringEnd (d :: s)

theorem stringEnd_quote (s : Bytes) : stringEnd (ch '"' :: s) = ch '"' :: s := by
  cases s <;> simp [stringEnd]

theorem stringEnd_escape (c : UInt8) (s : Bytes) :
    stringEnd (ch '\\' :: c :: s) = stringEnd s := by
  rw [stringEnd, if_neg (by decide), if_pos rfl]

theorem stringEnd_cons {c : UInt8} (h : c ≠ ch '"') (h' : c ≠ ch '\\') (s : Bytes) :
    stringEnd (c :: s) = stringEnd s := by
  cases s with
  | nil => simp [stringEnd, h]
  | cons d s => rw [stringEnd, if_neg h, if_neg h']

theorem stringLoop_pending (lx : Lexer) (hc : lx.Clean) :
    (stringLoop lx).2.pending = stringEnd lx.pending := by
  fun_induction stringLoop lx with
  | case1 lx h =>
    rw [pending_eq_cons _ (by rw [h]; decide), h, stringEnd_quote]
  | case2 lx hq h =>
    rw [pending_of_eof h]
    rfl
  | case3 lx hq he h hend =>
    rw [pending_eq_cons _ he, ← pending_getLast hc he, pending_of_eof hend, h]
    rfl
  | case4 lx hq he h hend ih =>
    rw [ih (hc.getLast.getLast.withText _), pending_withText, pending_getLast hc.getLast hend,
      pending_eq_cons _ he, ← pending_getLast hc he, pending_eq_cons _ hend, h, stringEnd_escape,
      List.tail_cons]
  | case5 lx hq he h ih =>
    rw [ih (hc.getLast.withText _), pending_withText, pending_getLast hc he, pending_eq_cons _ he,
      stringEnd_cons hq h, List.tail_cons]

theorem wordLoop_suffix (lx : Lexer) : lx.wordLoop.is.rest <:+ lx.is.rest := by
  fun_induction wordLoop lx with
  | case1 lx h ih => exact ih.trans (getLast_suffix lx)
  | case2 lx h => exact getLast_suffix lx

theorem stringLoop_suffix (lx : Lexer) : (stringLoop lx).2.is.rest <:+ lx.is.rest := by
  fun_induction stringLoop lx with
  | case1 => exact List.suffix_rfl
  | case2 => exact List.suffix_rfl
  | case3 lx => exact getLast_suffix lx
  | case4 lx _ _ _ _ ih =>
    exact ih.trans ((getLast_suffix lx.getLast).trans (getLast_suffix lx))
  | case5 lx _ _ _ ih => exact ih.trans (getLast_suffix lx)

theorem Clean.readIdentifier {lx : Lexer} (hc : lx.Clean) : lx.readIdentifier.2.Clean :=
  hc.of_suffix (wordLoop_suffix { lx with text := [lx.last] })

theorem readIdentifier_pending {lx : Lexer} (hc : lx.Clean) (hlast : lx.last ≠ EOF) :
    lx.readIdentifier.2.pending = lx.pending.tail.dropWhile isWordChar ∧
      lx.readIdentifier.2.text = lx.last :: lx.pending.tail.takeWhile isWordChar :=
  wordLoop_pending { lx with text := [lx.last] } hc hlast

theorem Clean.readString {lx : Lexer} (hc : lx.Clean) : lx.readString.2.Clean :=
  hc.of_suffix (stringLoop_suffix (lx.withText []))

theorem readString_pending {lx : Lexer} (hc : lx.Clean) :
    lx.readString.2.pending = stringEnd lx.pending :=
  stringLoop_pending (lx.withText []) hc

theorem stringEnd_suffix (s : Bytes) : stringEnd s <:+ s := by
  fun_induction stringEnd s with
  | case1 => exact List.suffix_rfl
  | case2 => exact List.suffix_rfl
  | case3 => exact List.nil_suffix
  | case4 => exact List.suffix_rfl
  | case5 d s _ ih => exact ih.trans ((List.suffix_cons d s).trans (List.suffix_cons _ _))
  | case6 c d s _ _ ih => exact ih.trans (List.suffix_cons c _)

/-- The lookahead after a string is its closing quote, unless the text ended. -/
theorem stringEnd_head (s : Bytes) : stringEnd s = [] ∨ ∃ t, stringEnd s = ch '"' :: t := by
  fun_induction stringEnd s with
  | case1 => exact .inl rfl
  | case2 => exact .inr ⟨[], rfl⟩
  | case3 => exact .inl rfl
  | case4 d s => exact .inr ⟨d :: s, rfl⟩
  | case5 d s _ ih => exact ih
  | case6 c d s _ _ ih => exact ih

/-! ## Numbers and operators -/

theorem setValue_state (sm : NumberMatch) (mask : Int32) (isSigned : Bool) (lx : Lexer) :
    ∃ value, (setValue sm mask isSigned lx).2 = { lx with value := value } := by
  unfold setValue
  simp only
  split
  · split
    · exact ⟨lx.value, rfl⟩
    · exact ⟨_, rfl⟩
  · exact ⟨lx.value, rfl⟩

theorem evalNumber_state (numstr : Bytes) (lx : Lexer) :
    ∃ value width, (evalNumber numstr lx).2 = { lx with value := value, width := width } := by
  unfold evalNumber
  split
  · exact ⟨lx.value, lx.width, rfl⟩
  · rename_i sm _
    split
    · obtain ⟨value, h⟩ := setValue_state sm (-1) false lx
      exact ⟨value, lx.width, h⟩
    · split
      · exact ⟨lx.value, lx.width, rfl⟩
      · simp only
        split
        · exact ⟨lx.value, _, rfl⟩
        · obtain ⟨value, h⟩ := setValue_state sm _ _ { lx with width := _ }
          exact ⟨value, _, h⟩

/-- `read_number` moves as its loop does: the evaluation only sets the value and
the width. -/
theorem readNumber_state (lx : Lexer) :
    ∃ value width lx', Skips isNumberChar lx.advance lx' ∧
      lx.readNumber.2 = { lx' with value := value, width := width } := by
  obtain ⟨value, width, h⟩ :=
    evalNumber_state (numberLoop [lx.last] lx.advance).1 (numberLoop [lx.last] lx.advance).2
  exact ⟨value, width, _, skips_numberLoop _ _, h⟩

/-- The characters an operator goes on with. -/
def isOperatorTail (c : UInt8) : Bool :=
  [ch '=', ch '&', ch '+', ch '.', ch '<', ch '-', ch '|'].contains c

theorem skips_follow (lx : Lexer) {c : Char} (hc : isOperatorTail (ch c)) (long short : Token) :
    Skips isOperatorTail lx (lx.follow c long short).2 := by
  unfold follow
  split
  · rename_i h
    exact .step (by rw [h]; exact hc) (.refl _)
  · exact .refl _

theorem skips_readOperator (prev : UInt8) (lx : Lexer) :
    Skips isOperatorTail lx (readOperator prev lx).2 := by
  have hnext : ∀ {c : Char}, isOperatorTail (ch c) → lx.last = ch c →
      Skips isOperatorTail lx lx.advance :=
    fun hc h => .step (by rw [h]; exact hc) (.refl _)
  unfold readOperator
  split
  case h_3 =>
    split
    · rename_i h
      exact (hnext (by decide) h).trans (skips_follow _ (by decide) _ _)
    · exact .refl _
  case h_14 =>
    split
    · rename_i h
      exact hnext (by decide) h
    · exact skips_follow _ (by decide) _ _
  case h_18 => split <;> exact .refl _
  case h_23 =>
    split
    · rename_i h
      exact (hnext (by decide) h).trans (skips_follow _ (by decide) _ _)
    · split
      · rename_i h
        exact (hnext (by decide) h).trans (skips_follow _ (by decide) _ _)
      · exact skips_follow _ (by decide) _ _
  all_goals first | exact .refl _ | exact skips_follow _ (by decide) _ _

/-! ## Lines and comments -/

/-- What is pending after the rest of a line is skipped.  When nothing is left
of the line the stream fails and the text behind it is lost. -/
def afterLine (s : Bytes) : Bytes :=
  if s.takeWhile (· != ch '\n') = [] then [] else s.dropWhile (· != ch '\n')

theorem pending_getLine {lx : Lexer} (hlast : lx.last ≠ EOF) :
    pending { lx with is := lx.is.getLine } = lx.last :: afterLine lx.pending.tail := by
  by_cases hg : lx.is.good = true
  · rw [pending, pending]
    simp only [hlast, if_false, hg, if_true, List.tail_cons, afterLine, Istream.getLine]
    by_cases ht : lx.is.rest.takeWhile (· != ch '\n') = []
    · simp [ht, Istream.good]
    · by_cases hd : lx.is.rest.dropWhile (· != ch '\n') = []
      · simp [ht, hd, Istream.good]
      · simp [ht, hd, Istream.good]
  · rw [Bool.not_eq_true] at hg
    simp [pending, hlast, hg, Istream.getLine, Istream.not_good_fail, afterLine]

theorem getLine_suffix (lx : Lexer) : lx.is.getLine.rest <:+ lx.is.rest := by
  unfold Istream.getLine
  split
  · exact List.dropWhile_suffix _
  · exact List.suffix_rfl

theorem Clean.getLine {lx : Lexer} (hc : lx.Clean) :
    Clean { lx with is := lx.is.getLine } := hc.of_suffix (getLine_suffix lx)

theorem Clean.readLocation {lx : Lexer} (hc : lx.Clean) : lx.readLocation.Clean :=
  hc.getLine.advance

theorem pending_readLocation {lx : Lexer} (hc : lx.Clean) :
    lx.readLocation.pending = afterLine lx.pending.tail := by
  unfold readLocation
  by_cases h : lx.last = EOF
  · rw [pending_advance hc.getLine, pending_of_eof h, pending_of_eof (by exact h)]
    rfl
  · rw [pending_advance hc.getLine, pending_getLine h]
    rfl

theorem afterLine_suffix (s : Bytes) : afterLine s <:+ s := by
  unfold afterLine
  split
  · exact List.nil_suffix
  · exact List.dropWhile_suffix _

/-- What is pending after a block comment, if the comment ends.  `star` says that
the character before was a `*`. -/
def blockEnd : Bool → Bytes → Option Bytes
  | _, [] => none
  | star, c :: s =>
    if c = 0 ∨ (star = true ∧ c = ch '/') then some s else blockEnd (c = ch '*') s

theorem blockEnd_true (s : Bytes) :
    blockEnd true s =
      match s.dropWhile (· == ch '*') with
      | [] => none
      | c :: t => if c = 0 ∨ c = ch '/' then some t else blockEnd false t := by
  induction s with
  | nil => rfl
  | cons c s ih =>
    by_cases h : c = ch '*'
    · rw [h, List.dropWhile_cons_of_pos (by simp), ← ih, blockEnd]
      simp [show ch '*' ≠ 0 by decide, show ch '*' ≠ ch '/' by decide]
    · rw [List.dropWhile_cons_of_neg (by simpa using h), blockEnd]
      simp [h]

/-- The lookahead `/` after a run of `*` is overwritten with NUL. -/
def closeStars : Bytes → Bytes
  | [] => []
  | c :: s => (if c = ch '/' then 0 else c) :: s

/-- What is pending after one round, from what was pending behind the lookahead. -/
def blockStep : Bytes → Bytes
  | [] => []
  | c :: s => if c = ch '*' then closeStars (s.dropWhile (· == ch '*')) else c :: s

theorem blockStep_length (s : Bytes) : (blockStep s).length ≤ s.length := by
  cases s with
  | nil => exact Nat.le_refl _
  | cons c s =>
    have hlen := (List.dropWhile_suffix (l := s) (· == ch '*')).length_le
    rw [blockStep]
    split
    · cases hd : s.dropWhile (· == ch '*') with
      | nil => exact Nat.zero_le _
      | cons d t =>
        rw [hd] at hlen
        exact Nat.le_succ_of_le hlen
    · exact Nat.le_refl _

theorem blockEnd_step (s : Bytes) :
    blockEnd false s =
      match blockStep s with
      | [] => none
      | c :: t => if c = 0 then some t else blockEnd false t := by
  cases s with
  | nil => rfl
  | cons c s =>
    by_cases h : c = ch '*'
    · rw [h, blockEnd, if_neg (by decide), decide_eq_true rfl, blockEnd_true, blockStep,
        if_pos rfl]
      cases s.dropWhile (· == ch '*') with
      | nil => rfl
      | cons d t => by_cases hslash : d = ch '/' <;> simp [closeStars, hslash]
    · rw [blockEnd, blockStep, if_neg h, decide_eq_false h]
      simp

theorem pending_closeStars (lx : Lexer) :
    pending (if lx.last = ch '/' then { lx with last := 0 } else lx) =
      closeStars lx.pending := by
  by_cases hslash : lx.last = ch '/'
  · rw [if_pos hslash, pending_eq_cons lx (by rw [hslash]; decide), closeStars,
      if_pos hslash]
    simp [pending, hslash, show (0 : UInt8) ≠ EOF by decide, show ch '/' ≠ EOF by decide]
  · rw [if_neg hslash]
    cases hp : lx.pending with
    | nil => rfl
    | cons c s =>
      rw [last_eq_of_pending hp] at hslash
      rw [closeStars, if_neg hslash]

theorem pending_blockRound {lx : Lexer} (hc : lx.Clean) :
    lx.blockRound.pending = blockStep lx.pending.tail := by
  rw [blockRound, ← pending_advance hc]
  by_cases hstar : lx.advance.last = ch '*'
  · rw [if_pos hstar, pending_closeStars, pending_skipStars hc.advance,
      pending_eq_cons lx.advance (by rw [hstar]; decide), hstar, blockStep, if_pos rfl,
      List.tail_cons]
  · rw [if_neg hstar]
    cases hp : lx.advance.pending with
    | nil => rfl
    | cons c s =>
      rw [last_eq_of_pending hp] at hstar
      rw [blockStep, if_neg hstar]

theorem blockRound_clean {lx : Lexer} (hc : lx.Clean) : lx.blockRound.Clean := by
  have hstars := hc.advance.skips (skips_skipStars lx.advance)
  unfold blockRound
  split
  · split
    · exact hstars
    · exact hstars
  · exact hc.advance

theorem blockEnd_suffix {star : Bool} {s t : Bytes} (h : blockEnd star s = some t) :
    t <:+ s := by
  induction s generalizing star with
  | nil => cases h
  | cons c s ih =>
    rw [blockEnd] at h
    split at h
    · cases h
      exact List.suffix_cons c _
    · exact (ih h).trans (List.suffix_cons c s)

end Lexer

end P4LS
