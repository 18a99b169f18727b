import P4LS.Lexer.Text

/-!
# Calls show the tokens of the text

A call of `next` on a clean lexer shows the first token of the pending text and
leaves the text behind it.  So what a run of calls shows is a prefix of the
tokens of the text and of the ends that follow them, and two lexers show the same
exactly when their pending texts have the same tokens.
-/

namespace P4LS

open Bytes

namespace Lexer

/-! ## Operators -/

/-- A way to see a lexer as the text it has still to read, its lookahead in front. -/
structure View (P : Lexer → Bytes → Prop) : Prop where
  last : ∀ {lx s}, P lx s → lx.last = s.headD EOF
  advance : ∀ {lx c s}, P lx (c :: s) → c ≠ EOF → P lx.advance s

/-- The lexer and the text give the same token, and are left in step. -/
def InStep (P : Lexer → Bytes → Prop) (read : Token × Lexer) (seen : Token × Bytes) : Prop :=
  read.1 = seen.1 ∧ P read.2 seen.2

theorem View.last_iff {P : Lexer → Bytes → Prop} (hv : View P) {lx : Lexer} {s : Bytes}
    (h : P lx s) {c : UInt8} (hne : c ≠ EOF) : lx.last = c ↔ s.head? = some c := by
  rw [hv.last h]
  cases s with
  | nil => simp [hne.symm]
  | cons d s => simp

theorem View.tail {P : Lexer → Bytes → Prop} (hv : View P) {lx : Lexer} {s : Bytes}
    (h : P lx s) {c : UInt8} (hne : c ≠ EOF) (hlast : lx.last = c) : P lx.advance s.tail := by
  obtain ⟨t, rfl⟩ := List.head?_eq_some_iff.mp ((hv.last_iff h hne).mp hlast)
  exact hv.advance h hne

theorem View.ite {P : Lexer → Bytes → Prop} (hv : View P) {lx : Lexer} {s : Bytes}
    (h : P lx s) {c : UInt8} (hne : c ≠ EOF) {r r' : Token × Lexer} {t t' : Token × Bytes}
    (hthen : P lx.advance s.tail → InStep P r t) (helse : InStep P r' t') :
    InStep P (if lx.last = c then r else r') (if s.head? = some c then t else t') := by
  by_cases hlast : lx.last = c
  · rw [if_pos hlast, if_pos ((hv.last_iff h hne).mp hlast)]
    exact hthen (hv.tail h hne hlast)
  · rw [if_neg hlast, if_neg (fun hs => hlast ((hv.last_iff h hne).mpr hs))]
    exact helse

theorem View.follow {P : Lexer → Bytes → Prop} (hv : View P) {lx : Lexer} {s : Bytes}
    (h : P lx s) {c : Char} (hne : ch c ≠ EOF) (long short : Token) :
    InStep P (lx.follow c long short) (followText s c long short) :=
  hv.ite h hne (fun htail => ⟨rfl, htail⟩) ⟨rfl, h⟩

theorem View.readOperator {P : Lexer → Bytes → Prop} (hv : View P) {lx : Lexer} {s : Bytes}
    (h : P lx s) (prev : UInt8) : InStep P (readOperator prev lx) (munch prev s) := by
  unfold Lexer.readOperator munch
  generalize Char.ofUInt8 prev = k
  split
  case h_1 | h_7 | h_10 | h_15 | h_16 => exact hv.follow h (by decide) _ _
  case h_3 =>
    exact hv.ite h (by decide) (fun htail => hv.follow htail (by decide) _ _) ⟨rfl, h⟩
  case h_14 =>
    exact hv.ite h (by decide) (fun htail => ⟨rfl, htail⟩) (hv.follow h (by decide) _ _)
  case h_18 => exact hv.ite h (by decide) (fun _ => ⟨rfl, h⟩) ⟨rfl, h⟩
  case h_23 =>
    exact hv.ite h (by decide) (fun htail => hv.follow htail (by decide) _ _)
      (hv.ite h (by decide) (fun htail => hv.follow htail (by decide) _ _)
        (hv.follow h (by decide) _ _))
  case h_26 => simp_all [InStep]
  all_goals exact ⟨rfl, h⟩

/-- Without the byte that reads as the end the pending text is such a view. -/
theorem view_pending : View fun lx s => lx.Clean ∧ lx.pending = s where
  last h := by rw [last_eq, h.2]
  advance h _ := ⟨h.1.advance, by rw [pending_advance h.1, h.2, List.tail_cons]⟩

/-! ## The width is left alone -/

@[simp] theorem getLast_width (lx : Lexer) : lx.getLast.width = lx.width := rfl

theorem advance_width (lx : Lexer) : lx.advance.width = lx.width := by
  unfold advance
  split
  · rfl
  · split <;> rfl

theorem Skips.width_eq {p : UInt8 → Bool} {lx lx' : Lexer} (h : Skips p lx lx') :
    lx'.width = lx.width := by
  induction h with
  | refl _ => rfl
  | step _ _ ih => exact ih.trans (advance_width _)

theorem first_width (lx : Lexer) : lx.skipSpaces.advance.width = lx.width :=
  (advance_width _).trans (skips_skipSpaces lx).width_eq

theorem numberLoop_width (numstr : Bytes) (lx : Lexer) :
    (numberLoop numstr lx.advance).2.width = lx.width :=
  (skips_numberLoop _ _).width_eq.trans (advance_width lx)

theorem readLocation_width (lx : Lexer) : lx.readLocation.width = lx.width :=
  advance_width { lx with is := lx.is.getLine }

theorem blockRound_width (lx : Lexer) : lx.blockRound.width = lx.width := by
  have hstars := (skips_skipStars lx.advance).width_eq.trans (advance_width lx)
  unfold blockRound
  split
  · split
    · exact hstars
    · exact hstars
  · exact advance_width lx

theorem BlockEnds.width_eq {lx lx' : Lexer} (h : BlockEnds lx lx') : lx'.width = lx.width := by
  induction h with
  | stop _ => exact blockRound_width _
  | round _ _ ih => exact ih.trans (blockRound_width _)

theorem wordLoop_width (lx : Lexer) : lx.wordLoop.width = lx.width := by
  fun_induction wordLoop lx with
  | case1 lx _ ih => exact ih
  | case2 lx _ => rfl

theorem stringLoop_width (lx : Lexer) : (stringLoop lx).2.width = lx.width := by
  fun_induction stringLoop lx with
  | case1 => rfl
  | case2 => rfl
  | case3 => rfl
  | case4 _ _ _ _ _ ih => exact ih
  | case5 _ _ _ _ ih => exact ih

/-! ## What is seen of an outcome -/

theorem observe_error (error : ConversionError) (lx : Lexer) :
    observe (.error error, lx) = { kind := .error error, text := none, number := none } := rfl

theorem observe_number (lx : Lexer) :
    observe (.ok .tNumber, lx) =
      { kind := .ok .tNumber, text := none, number := some (lx.value, lx.width) } := by
  have htext : hasText .tNumber = false := by decide
  simp [observe, htext]

theorem observe_bare {token : Token} (h : hasText token = false) (hnumber : token ≠ .tNumber)
    (lx : Lexer) : observe (.ok token, lx) = .bare token := by
  simp [observe, h, Observed.bare, hnumber]

theorem observe_text {token : Token} (h : hasText token = true) (lx : Lexer) :
    observe (.ok token, lx) = { kind := .ok token, text := some lx.text, number := none } := by
  have hnumber : token ≠ .tNumber := by
    intro heq
    rw [heq] at h
    revert h
    decide
  simp [observe, h, hnumber]

theorem observe_unknown (lx : Lexer) : observe (.ok .tUnknown, lx) = .bare .tUnknown :=
  observe_bare (by decide) Token.noConfusion lx

/-! ## Strings -/

theorem stringBody_quote (s : Bytes) : stringBody (ch '"' :: s) = [] := by
  cases s <;> simp [stringBody]

theorem stringBody_escape (c : UInt8) (s : Bytes) :
    stringBody (ch '\\' :: c :: s) = ch '\\' :: c :: stringBody s := by
  rw [stringBody, if_neg (by decide), if_pos rfl]

theorem stringBody_cons {c : UInt8} (h : c ≠ ch '"') (h' : c ≠ ch '\\') (s : Bytes) :
    stringBody (c :: s) = c :: stringBody s := by
  cases s with
  | nil => simp [stringBody, h, h']
  | cons d s => rw [stringBody, if_neg h, if_neg h']

/-- A string is closed if and only if a quote is found, and its text is what stands before. -/
theorem stringLoop_shows (lx : Lexer) (hc : lx.Clean) :
    (stringLoop lx).2.text = lx.text ++ stringBody lx.pending ∧
      (stringLoop lx).1 = if stringEnd lx.pending = [] then .tUnknown else .tStringLiteral := by
  fun_induction stringLoop lx with
  | case1 lx h =>
    rw [pending_eq_cons _ (by rw [h]; decide), h, stringBody_quote, stringEnd_quote,
      List.append_nil, if_neg (List.cons_ne_nil _ _)]
    exact ⟨rfl, rfl⟩
  | case2 lx hq h =>
    rw [pending_of_eof h]
    exact ⟨(List.append_nil _).symm, rfl⟩
  | case3 lx hq he h hend =>
    rw [pending_eq_cons _ he, ← pending_getLast hc he, pending_of_eof hend, h]
    exact ⟨(List.append_nil _).symm, rfl⟩
  | case4 lx hq he h hend ih =>
    obtain ⟨ih1, ih2⟩ := ih (hc.getLast.getLast.withText _)
    rw [pending_withText, pending_getLast hc.getLast hend] at ih1 ih2
    rw [ih1, ih2, pending_eq_cons _ he, ← pending_getLast hc he, pending_eq_cons _ hend, h,
      stringBody_escape, stringEnd_escape, List.tail_cons]
    exact ⟨by simp [withText], rfl⟩
  | case5 lx hq he h ih =>
    obtain ⟨ih1, ih2⟩ := ih (hc.getLast.withText _)
    rw [pending_withText, pending_getLast hc he] at ih1 ih2
    rw [ih1, ih2, pending_eq_cons _ he, stringBody_cons hq h, stringEnd_cons hq h, List.tail_cons]
    exact ⟨by simp [withText], rfl⟩

/-! ## Numbers -/

/-- The loop over a literal collects the characters of literals, and stops behind them. -/
theorem View.numberLoop {P : Lexer → Bytes → Prop} (hv : View P) {lx : Lexer} {s : Bytes}
    (h : P lx s) (numstr : Bytes) :
    (numberLoop numstr lx).1 = numstr ++ s.takeWhile isNumberChar ∧
      P (numberLoop numstr lx).2 (s.dropWhile isNumberChar) := by
  fun_induction Lexer.numberLoop numstr lx generalizing s with
  | case1 numstr lx hchar ih =>
    have hne := ne_eof_of_isNumberChar hchar
    obtain ⟨t, rfl⟩ := List.head?_eq_some_iff.mp ((hv.last_iff h hne).mp rfl)
    obtain ⟨htext, hrest⟩ := ih (hv.advance h hne)
    rw [htext, List.takeWhile_cons_of_pos hchar, List.dropWhile_cons_of_pos hchar,
      List.append_assoc]
    exact ⟨rfl, hrest⟩
  | case2 numstr lx hchar =>
    cases s with
    | nil => exact ⟨(List.append_nil _).symm, h⟩
    | cons c s =>
      have hlast : lx.last = c := hv.last h
      rw [hlast] at hchar
      rw [List.takeWhile_cons_of_neg hchar, List.dropWhile_cons_of_neg hchar, List.append_nil]
      exact ⟨rfl, h⟩

/-- The value of a literal depends on its text alone, its width also on the width before. -/
theorem setValue_congr (sm : NumberMatch) (mask : Int32) (isSigned : Bool) {lx lx' : Lexer}
    (h : lx.width = lx'.width) :
    observe (setValue sm mask isSigned lx) = observe (setValue sm mask isSigned lx') ∧
      (setValue sm mask isSigned lx).2.width = (setValue sm mask isSigned lx').2.width := by
  unfold setValue
  by_cases hdigits : sm.digits.all (isDigitOfBase (numberBase sm)) = true
  · cases hstoi : stoi sm.digits (numberBase sm) with
    | error error => simp [hdigits, hstoi, observe_error, h]
    | ok n => simp [hdigits, hstoi, observe_number, h]
  · simp [hdigits, observe_unknown, h]

theorem evalNumber_congr (numstr : Bytes) {lx lx' : Lexer} (h : lx.width = lx'.width) :
    observe (evalNumber numstr lx) = observe (evalNumber numstr lx') ∧
      (evalNumber numstr lx).2.width = (evalNumber numstr lx').2.width := by
  unfold evalNumber
  cases matchNumber numstr with
  | none => simp [observe_unknown, h]
  | some sm =>
    cases hsized : sm.sized with
    | none =>
      simp only [hsized]
      exact setValue_congr sm _ _ h
    | some sized =>
      obtain ⟨digits, letter⟩ := sized
      cases hstoi : stoi digits 10 with
      | error error => simp [hsized, hstoi, observe_error, h]
      | ok n =>
        simp only [hsized, hstoi]
        split
        · simp [observe_unknown]
        · exact setValue_congr sm _ _ rfl

/-! ## One call -/

/-- What a call shows of a text that starts with a token or is empty, and what it leaves. -/
def Shown (width : Int32) : Bytes → Outcome → Prop
  | [], o => observe o = .bare .tEnd ∧ o.2.width = width ∧ o.2.pending = []
  | c :: s, o => observe o = (firstToken width c s).1 ∧ o.2.width = (firstToken width c s).2.1 ∧
      o.2.pending = (firstToken width c s).2.2

theorem tokenStart_first {lx : Lexer} (hc : lx.Clean) {c : UInt8} (h : lx.skipSpaces.last = c)
    (hne : c ≠ EOF) :
    tokenStart lx.pending = tokenStart (c :: lx.skipSpaces.advance.pending) := by
  rw [← h, ← pending_first hc (by rw [h]; exact hne), tokenStart_dropWhile]

theorem firstToken_word {c : UInt8} (h : isWordStart c = true) (width : Int32) (s : Bytes) :
    firstToken width c s =
      (wordSeen (c :: s.takeWhile isWordChar), width, s.dropWhile isWordChar) := by
  rw [firstToken, if_pos h]

theorem firstToken_number {c : UInt8} (h : isdigit c = true) (width : Int32) (s : Bytes) :
    firstToken width c s =
      (observe (evalNumber (c :: s.takeWhile isNumberChar) (fresh width [])),
        (evalNumber (c :: s.takeWhile isNumberChar) (fresh width [])).2.width,
        s.dropWhile isNumberChar) := by
  rw [firstToken, isWordStart_of_isdigit h, if_neg Bool.false_ne_true, if_pos h]

theorem firstToken_string (width : Int32) (s : Bytes) :
    firstToken width (ch '"') s = (stringToken s, width, stringEnd s) := by
  rw [firstToken, if_neg (by decide), if_neg (by decide), if_pos rfl]

theorem firstToken_operator {c : UInt8} (h : isOperatorStart c = true) (width : Int32)
    (s : Bytes) : firstToken width c s = (.bare (munch c s).1, width, (munch c s).2) := by
  simp only [isOperatorStart, Bool.and_eq_true, Bool.not_eq_true', bne_iff_ne, ne_eq] at h
  obtain ⟨⟨⟨⟨_, hword⟩, hdigit⟩, hquote⟩, _⟩ := h
  rw [firstToken, hword, hdigit, if_neg Bool.false_ne_true, if_neg Bool.false_ne_true,
    if_neg hquote]

theorem wordToken_cases (text : Bytes) :
    wordToken text = .tIdentifier ∨ ∃ entry ∈ keywords, entry.2 = wordToken text := by
  unfold wordToken
  cases h : keywords.lookup text with
  | none => exact .inl rfl
  | some token =>
    obtain ⟨l₁, l₂, hl, _⟩ := List.lookup_eq_some_iff.mp h
    exact .inr ⟨(text, token), by rw [hl]; simp, rfl⟩

theorem hasText_wordToken (text : Bytes) : hasText (wordToken text) = true := by
  rcases wordToken_cases text with h | ⟨entry, hentry, h⟩
  · rw [h]
    decide
  · rw [hasText, Bool.or_eq_true, List.any_eq_true, ← h]
    exact .inr ⟨entry, hentry, beq_self_eq_true entry.2⟩

theorem wordToken_ne_string (text : Bytes) : wordToken text ≠ .tStringLiteral := by
  have hkeywords : ∀ entry ∈ keywords, entry.2 ≠ .tStringLiteral := by decide
  rcases wordToken_cases text with h | ⟨entry, hentry, h⟩
  · rw [h]
    exact Token.noConfusion
  · rw [← h]
    exact hkeywords entry hentry

/-- An operator, and what is no token, has neither a text nor a value. -/
theorem observe_munch (prev : UInt8) (s : Bytes) (lx : Lexer) :
    observe (.ok (munch prev s).1, lx) = .bare (munch prev s).1 := by
  have hbare := isBare_munch prev s
  simp only [isBare, Bool.and_eq_true, Bool.not_eq_true', bne_iff_ne, ne_eq] at hbare
  exact observe_bare hbare.1.1 hbare.1.2 lx

theorem shows_word {lx : Lexer} (hc : lx.Clean) (h : isWordStart lx.skipSpaces.last = true) :
    Shown lx.width (lx.skipSpaces.last :: lx.skipSpaces.advance.pending)
      (.ok lx.skipSpaces.readIdentifier.1, lx.skipSpaces.readIdentifier.2) := by
  have hclean := hc.skips (skips_skipSpaces lx)
  obtain ⟨hpending, htext⟩ := readIdentifier_pending hclean (ne_eof_of_isWordStart h)
  rw [← pending_advance hclean] at hpending htext
  have htoken : lx.skipSpaces.readIdentifier.1 =
      wordToken lx.skipSpaces.readIdentifier.2.text := rfl
  rw [Shown, firstToken_word h, htoken, observe_text (hasText_wordToken _), htext]
  exact ⟨rfl, (wordLoop_width { lx.skipSpaces with text := _ }).trans
    (skips_skipSpaces lx).width_eq, hpending⟩

theorem readNumber_eq (lx : Lexer) :
    lx.readNumber = evalNumber (numberLoop [lx.last] lx.advance).1
      (numberLoop [lx.last] lx.advance).2 := rfl

theorem shows_number {lx : Lexer} (hc : lx.Clean) (h : isdigit lx.skipSpaces.last = true) :
    Shown lx.width (lx.skipSpaces.last :: lx.skipSpaces.advance.pending)
      lx.skipSpaces.readNumber := by
  have hview : lx.skipSpaces.advance.Clean ∧
      lx.skipSpaces.advance.pending = lx.skipSpaces.advance.pending := ⟨hc.first, rfl⟩
  obtain ⟨htext, _, hpending⟩ := view_pending.numberLoop hview [lx.skipSpaces.last]
  have hwidth : (numberLoop [lx.skipSpaces.last] lx.skipSpaces.advance).2.width =
      (fresh lx.width []).width := (skips_numberLoop _ _).width_eq.trans (first_width lx)
  obtain ⟨hseen, hwidth'⟩ := evalNumber_congr
    (lx.skipSpaces.last :: lx.skipSpaces.advance.pending.takeWhile isNumberChar) hwidth
  have hread : lx.skipSpaces.readNumber =
      evalNumber (lx.skipSpaces.last :: lx.skipSpaces.advance.pending.takeWhile isNumberChar)
        (numberLoop [lx.skipSpaces.last] lx.skipSpaces.advance).2 := by
    rw [readNumber_eq, htext]
    rfl
  obtain ⟨value, width, hstate⟩ := evalNumber_state
    (lx.skipSpaces.last :: lx.skipSpaces.advance.pending.takeWhile isNumberChar)
    (numberLoop [lx.skipSpaces.last] lx.skipSpaces.advance).2
  rw [Shown, firstToken_number h, hread]
  refine ⟨hseen, hwidth', ?_⟩
  rw [hstate]
  exact hpending

theorem shows_string {lx : Lexer} (hc : lx.Clean) (h : lx.skipSpaces.last = ch '"') :
    Shown lx.width (lx.skipSpaces.last :: lx.skipSpaces.advance.pending)
      (.ok lx.skipSpaces.advance.readString.1, lx.skipSpaces.advance.readString.2) := by
  obtain ⟨htext, hkind⟩ := stringLoop_shows (lx.skipSpaces.advance.withText []) hc.first
  rw [pending_withText] at htext hkind
  rw [Shown, h, firstToken_string]
  refine ⟨?_, (stringLoop_width (lx.skipSpaces.advance.withText [])).trans (first_width lx),
    readString_pending hc.first⟩
  show observe (.ok (stringLoop (lx.skipSpaces.advance.withText [])).1,
    (stringLoop (lx.skipSpaces.advance.withText [])).2) = _
  rw [hkind, stringToken]
  split
  · rw [observe_unknown]
  · rw [observe_text (by decide), htext]
    rfl

theorem shows_operator {lx : Lexer} (hc : lx.Clean)
    (h : isOperatorStart lx.skipSpaces.last = true) :
    Shown lx.width (lx.skipSpaces.last :: lx.skipSpaces.advance.pending)
      (.ok (readOperator lx.skipSpaces.last lx.skipSpaces.advance).1,
        (readOperator lx.skipSpaces.last lx.skipSpaces.advance).2) := by
  have hview : lx.skipSpaces.advance.Clean ∧
      lx.skipSpaces.advance.pending = lx.skipSpaces.advance.pending := ⟨hc.first, rfl⟩
  obtain ⟨hkind, _, hpending⟩ := view_pending.readOperator hview lx.skipSpaces.last
  rw [Shown, firstToken_operator h, hkind, observe_munch]
  exact ⟨rfl, (skips_readOperator _ _).width_eq.trans (first_width lx), hpending⟩

theorem not_isspace_skipSpaces (lx : Lexer) : ¬isspace lx.skipSpaces.last = true := by
  fun_induction skipSpaces lx with
  | case1 lx _ ih => exact ih
  | case2 lx h => exact h

/-- A call that completes shows the first token of the pending text. -/
theorem Scan.shows {lx : Lexer} {o : Outcome} (h : Scan lx o) (hc : lx.Clean) :
    ∃ s, tokenStart lx.pending = some s ∧ Shown lx.width s o := by
  induction h with
  | @finish lx h =>
    have hnil : tokenStart lx.pending = some [] := by
      rw [← tokenStart_dropWhile, ← pending_skipSpaces hc, pending_of_eof h, tokenStart_nil]
    exact ⟨[], hnil, observe_bare (by decide) Token.noConfusion _,
      (skips_skipSpaces lx).width_eq, pending_of_eof h⟩
  | @word lx h =>
    refine ⟨_, ?_, shows_word hc h⟩
    rw [tokenStart_first hc rfl (ne_eof_of_isWordStart h)]
    refine tokenStart_token (startsToken_of_isWordChar (isWordChar_of_isWordStart h))
      fun hslash => ?_
    rw [hslash.1] at h
    exact absurd h (by decide)
  | @number lx h =>
    refine ⟨_, ?_, shows_number hc h⟩
    rw [tokenStart_first hc rfl (ne_eof_of_isdigit h)]
    refine tokenStart_token (startsToken_of_isWordChar (isWordChar_of_isdigit h))
      fun hslash => ?_
    rw [hslash.1] at h
    exact absurd h (by decide)
  | @string lx h =>
    refine ⟨_, ?_, shows_string hc h⟩
    rw [tokenStart_first hc rfl (by rw [h]; decide), h]
    exact tokenStart_token (by decide) fun hslash => absurd hslash.1 (by decide)
  | @locationEnd lx h hend =>
    have hp := pending_readLocation hc.first
    rw [pending_of_eof hend] at hp
    have hnil : tokenStart lx.pending = some [] := by
      rw [tokenStart_first hc h (by decide), tokenStart_location, ← hp, tokenStart_nil]
    exact ⟨[], hnil, observe_bare (by decide) Token.noConfusion _,
      (readLocation_width _).trans (first_width lx), pending_of_eof hend⟩
  | @location lx o h hend _ ih =>
    obtain ⟨s, hs, hshown⟩ := ih hc.first.readLocation
    rw [readLocation_width, first_width] at hshown
    refine ⟨s, ?_, hshown⟩
    rw [tokenStart_first hc h (by decide), tokenStart_location, ← pending_readLocation hc.first, hs]
  | @lineComment lx o h hl _ ih =>
    obtain ⟨s, hs, hshown⟩ := ih hc.first.readLocation
    rw [readLocation_width, first_width] at hshown
    refine ⟨s, ?_, hshown⟩
    rw [tokenStart_first hc h (by decide), pending_second hl (by decide), tokenStart_line,
      ← pending_readLocation hc.first, hs]
  | @blockComment lx lx' o h hl hblock _ ih =>
    obtain ⟨hend, hclean⟩ := hblock.blockEnd_eq hc.first
    obtain ⟨s, hs, hshown⟩ := ih hclean.advance
    rw [advance_width, hblock.width_eq, first_width] at hshown
    refine ⟨s, ?_, hshown⟩
    rw [tokenStart_first hc h (by decide), pending_second hl (by decide), tokenStart_block, hend,
      Option.bind_some, ← pending_advance hclean, hs]
  | @operator lx h hcomment =>
    refine ⟨_, ?_, shows_operator hc h⟩
    have hne := ne_eof_of_isOperatorStart h
    have hspace : isspace lx.skipSpaces.last = false := by
      rw [← Bool.not_eq_true]
      exact not_isspace_skipSpaces lx
    have hstarts : startsToken lx.skipSpaces.last = true := by
      simp only [isOperatorStart, Bool.and_eq_true] at h
      rw [startsToken, hspace, h.2]
      rfl
    rw [tokenStart_first hc rfl hne]
    refine tokenStart_token hstarts fun hslash => hcomment ⟨hslash.1, ?_⟩
    rcases hslash.2 with hd | hd
    · exact .inl ((head?_pending_eq_some (by decide)).mp hd)
    · exact .inr ((head?_pending_eq_some (by decide)).mp hd)

/-- A call completes where no comment before the next token is left open.  The induction is
on the length of the text: behind a comment or a line there is less of it. -/
theorem exists_scan_of_tokenStart {lx : Lexer} (hc : lx.Clean) {s : Bytes}
    (hstart : tokenStart lx.pending = some s) : ∃ o, Scan lx o := by
  induction hn : lx.pending.length using Nat.strong_induction_on generalizing lx with
  | _ n ih =>
    rcases exists_scan_or_skips lx with hscan | hskips
    · exact hscan
    have hend : lx.skipSpaces.last ≠ EOF := by
      rcases hskips with hhash | ⟨hslash, _⟩
      · rw [hhash]
        decide
      · rw [hslash]
        decide
    have hshort : lx.skipSpaces.advance.pending.length < n := by
      have hdrop := (List.dropWhile_suffix (l := lx.pending) isspace).length_le
      rw [pending_first hc hend, List.length_cons] at hdrop
      omega
    have hlines : lx.skipSpaces.advance.readLocation.pending.length < n := by
      have hle := ((afterLine_suffix lx.skipSpaces.advance.pending.tail).trans
        (List.tail_suffix _)).length_le
      rw [pending_readLocation hc.first]
      omega
    rcases hskips with hhash | ⟨hslash, hline | hblock⟩
    · by_cases heof : lx.skipSpaces.advance.readLocation.last = EOF
      · exact ⟨_, .locationEnd hhash heof⟩
      rw [tokenStart_first hc hhash (by decide), tokenStart_location,
        ← pending_readLocation hc.first] at hstart
      obtain ⟨o, ho⟩ := ih _ hlines hc.first.readLocation hstart rfl
      exact ⟨o, .location hhash heof ho⟩
    · rw [tokenStart_first hc hslash (by decide), pending_second hline (by decide),
        tokenStart_line, ← pending_readLocation hc.first] at hstart
      obtain ⟨o, ho⟩ := ih _ hlines hc.first.readLocation hstart rfl
      exact ⟨o, .lineComment hslash hline ho⟩
    · rw [tokenStart_first hc hslash (by decide), pending_second hblock (by decide),
        tokenStart_block] at hstart
      obtain ⟨t, ht, hstart⟩ := Option.bind_eq_some_iff.mp hstart
      obtain ⟨lx', hlx'⟩ := exists_blockEnds hc.first ht
      obtain ⟨hend', hclean⟩ := hlx'.blockEnd_eq hc.first
      have hp : lx'.advance.pending = t := by
        rw [pending_advance hclean, Option.some.inj (hend'.symm.trans ht)]
      have hle := ((blockEnd_suffix ht).trans (List.tail_suffix _)).length_le
      obtain ⟨o, ho⟩ := ih _ (by rw [hp]; omega) hclean.advance (by rw [hp]; exact hstart) rfl
      exact ⟨o, .blockComment hslash hblock hlx' ho⟩

/-! ## Runs of calls -/

/-- Some calls in a row show these tokens. -/
def Shows (lx : Lexer) (ts : List Observed) : Prop :=
  ∃ os lx', Calls lx os lx' ∧ os.map observe = ts

/-- The calls of two lexers show the same tokens, however many are made. -/
def SameTokens (lx lx' : Lexer) : Prop := ∀ ts, Shows lx ts ↔ Shows lx' ts

/-- The first tokens of a list, and behind its last as many ends as one likes, if the end is
reached. -/
def Listed : List Observed → Bool → List Observed → Prop
  | _, _, [] => True
  | [], closed, t :: ts => closed = true ∧ t = .bare .tEnd ∧ Listed [] closed ts
  | seen :: more, closed, t :: ts => t = seen ∧ Listed more closed ts

theorem listed_nil (seen : List Observed) (closed : Bool) : Listed seen closed [] := by
  cases seen <;> exact trivial

theorem shows_nil (lx : Lexer) : Shows lx [] := ⟨[], lx, .nil lx, rfl⟩

/-- A call has one outcome, so what a run shows is what this outcome and the calls behind it
show. -/
theorem shows_cons {lx : Lexer} {o : Outcome} (h : Completes lx o) (t : Observed)
    (ts : List Observed) : Shows lx (t :: ts) ↔ t = observe o ∧ Shows o.2 ts := by
  constructor
  · intro hshows
    obtain ⟨os, lx', hcalls, hmap⟩ := hshows
    cases hcalls with
    | nil => cases hmap
    | @cons _ _ o' os hcall hrest =>
      obtain ⟨ht, hts⟩ := List.cons.inj hmap
      rw [hcall.unique h] at ht hrest
      exact ⟨ht.symm, os, lx', hrest, hts⟩
  · intro hboth
    obtain ⟨ht, os, lx', hcalls, hmap⟩ := hboth
    exact ⟨o :: os, lx', .cons h hcalls, by rw [List.map_cons, hmap, ht]⟩

theorem not_shows_cons {lx : Lexer} (h : ∀ o, ¬Completes lx o) (t : Observed)
    (ts : List Observed) : ¬Shows lx (t :: ts) := by
  intro hshows
  obtain ⟨os, lx', hcalls, hmap⟩ := hshows
  cases hcalls with
  | nil => cases hmap
  | cons hcall _ => exact h _ hcall

/-- What calls show are the tokens of the pending text. -/
theorem shows_iff {lx : Lexer} (hc : lx.Clean) (ts : List Observed) :
    Shows lx ts ↔ Listed (tokens lx.width lx.pending).1 (tokens lx.width lx.pending).2 ts := by
  induction ts generalizing lx with
  | nil => exact iff_of_true (shows_nil lx) (listed_nil _ _)
  | cons t ts ih =>
    cases hstart : tokenStart lx.pending with
    | none =>
      have hnone : ∀ o, ¬Completes lx o := by
        intro o ho
        obtain ⟨s, hs, _⟩ := (completes_iff_scan.mp ho).shows hc
        rw [hstart] at hs
        cases hs
      rw [tokens_none hstart]
      exact iff_of_false (not_shows_cons hnone t ts) fun h => Bool.false_ne_true h.1
    | some s =>
      obtain ⟨o, ho⟩ := exists_scan_of_tokenStart hc hstart
      obtain ⟨s', hs', hshown⟩ := ho.shows hc
      rw [hstart] at hs'
      cases hs'
      rw [shows_cons (completes_of_scan ho), ih (hc.of_suffix ho.rest_suffix)]
      cases s with
      | nil =>
        obtain ⟨hseen, hwidth, hpending⟩ := hshown
        rw [hseen, hpending, tokens_nil tokenStart_nil, tokens_nil hstart, Listed]
        exact ⟨fun h => ⟨rfl, h⟩, fun h => h.2⟩
      | cons c s =>
        obtain ⟨hseen, hwidth, hpending⟩ := hshown
        rw [hseen, hwidth, hpending, tokens_cons hstart, Listed]

/-! ## The same tokens -/

theorem end_not_mem_tokens (width : Int32) (s : Bytes) :
    .bare .tEnd ∉ (tokens width s).1 := by
  fun_induction tokens width s with
  | case1 => exact List.not_mem_nil
  | case2 => exact List.not_mem_nil
  | case3 width s c t _ later ih =>
    intro hmem
    rcases List.mem_cons.mp hmem with h | h
    · exact firstToken_ne_end width c t h.symm
    · exact ih h

theorem listed_inj {l l' : List Observed} {b b' : Bool} (hl : .bare .tEnd ∉ l)
    (hl' : .bare .tEnd ∉ l') (h : ∀ ts, Listed l b ts ↔ Listed l' b' ts) :
    l = l' ∧ b = b' := by
  induction l generalizing l' with
  | nil =>
    cases l' with
    | nil =>
      have hone := h [.bare .tEnd]
      simp only [Listed, and_true] at hone
      exact ⟨rfl, Bool.eq_iff_iff.mpr hone⟩
    | cons x xs =>
      have hone := (h [x]).mpr ⟨rfl, listed_nil _ _⟩
      rw [hone.2.1] at hl'
      exact absurd List.mem_cons_self hl'
  | cons x xs ih =>
    cases l' with
    | nil =>
      have hone := (h [x]).mp ⟨rfl, listed_nil _ _⟩
      rw [hone.2.1] at hl
      exact absurd List.mem_cons_self hl
    | cons x' xs' =>
      have hhead : x = x' := ((h [x]).mp ⟨rfl, listed_nil _ _⟩).1
      have htail : ∀ ts, Listed xs b ts ↔ Listed xs' b' ts := by
        intro ts
        have hcons := h (x :: ts)
        simp only [Listed, hhead, true_and] at hcons
        exact hcons
      obtain ⟨hxs, hb⟩ := ih (fun hm => hl (List.mem_cons_of_mem _ hm))
        (fun hm => hl' (List.mem_cons_of_mem _ hm)) htail
      exact ⟨by rw [hhead, hxs], hb⟩

/-- Two lexers show the same tokens if and only if their texts have the same tokens. -/
theorem sameTokens_iff {lx lx' : Lexer} (hc : lx.Clean) (hc' : lx'.Clean) :
    SameTokens lx lx' ↔ tokens lx.width lx.pending = tokens lx'.width lx'.pending := by
  constructor
  · intro h
    obtain ⟨hseen, hclosed⟩ := listed_inj (end_not_mem_tokens lx.width lx.pending)
      (end_not_mem_tokens lx'.width lx'.pending)
      fun ts => by rw [← shows_iff hc, ← shows_iff hc', h ts]
    exact Prod.ext hseen hclosed
  · intro h ts
    rw [shows_iff hc, shows_iff hc', h]

/-! ## The width an earlier literal left

A literal without a width leaves the width of an earlier one, and `get_width`
returns it.  Nothing else that is seen of a token depends on it. -/

/-- What is seen of a token apart from `get_width`. -/
def Observed.withoutWidth (seen : Observed) : Observed :=
  { seen with number := seen.number.map fun number => (number.1, 0) }

theorem setValue_withoutWidth (sm : NumberMatch) (mask : Int32) (lx lx' : Lexer) :
    (observe (setValue sm mask false lx)).withoutWidth =
      (observe (setValue sm mask false lx')).withoutWidth := by
  unfold setValue
  by_cases hdigits : sm.digits.all (isDigitOfBase (numberBase sm)) = true
  · cases hstoi : stoi sm.digits (numberBase sm) with
    | error error => simp [hdigits, hstoi, observe_error]
    | ok n => simp [hdigits, hstoi, observe_number, Observed.withoutWidth]
  · simp [hdigits, observe_unknown]

theorem evalNumber_withoutWidth (numstr : Bytes) (lx lx' : Lexer) :
    (observe (evalNumber numstr lx)).withoutWidth =
      (observe (evalNumber numstr lx')).withoutWidth := by
  unfold evalNumber
  cases matchNumber numstr with
  | none => simp [observe_unknown]
  | some sm =>
    cases hsized : sm.sized with
    | none =>
      simp only [hsized]
      exact setValue_withoutWidth sm _ lx lx'
    | some sized =>
      obtain ⟨digits, letter⟩ := sized
      cases hstoi : stoi digits 10 with
      | error error => simp [hsized, hstoi, observe_error]
      | ok n =>
        simp only [hsized, hstoi]
        split
        · simp [observe_unknown]
        · have hwidth : ({ lx with width := Int32.ofInt n } : Lexer).width =
              ({ lx' with width := Int32.ofInt n } : Lexer).width := rfl
          exact congrArg Observed.withoutWidth (setValue_congr sm _ _ hwidth).1

theorem firstToken_withoutWidth (width width' : Int32) (c : UInt8) (s : Bytes) :
    (firstToken width c s).1.withoutWidth = (firstToken width' c s).1.withoutWidth ∧
      (firstToken width c s).2.2 = (firstToken width' c s).2.2 := by
  unfold firstToken
  split
  · exact ⟨rfl, rfl⟩
  split
  · exact ⟨evalNumber_withoutWidth _ _ _, rfl⟩
  split <;> exact ⟨rfl, rfl⟩

/-- Whatever the width, a text has the same tokens up to `get_width`. -/
theorem tokens_withoutWidth (width width' : Int32) (s : Bytes) :
    (tokens width s).1.map Observed.withoutWidth = (tokens width' s).1.map Observed.withoutWidth ∧
      (tokens width s).2 = (tokens width' s).2 := by
  fun_induction tokens width s generalizing width' with
  | case1 width s h =>
    rw [tokens_none h]
    exact ⟨rfl, rfl⟩
  | case2 width s h =>
    rw [tokens_nil h]
    exact ⟨rfl, rfl⟩
  | case3 width s c t h later ih =>
    obtain ⟨hseen, hrest⟩ := firstToken_withoutWidth width width' c t
    obtain ⟨hmap, hclosed⟩ := ih (firstToken width' c t).2.1
    rw [tokens_cons h, ← hrest, List.map_cons, List.map_cons, hseen]
    exact ⟨congrArg _ hmap, hclosed⟩

theorem listed_withoutWidth {l l' : List Observed} {closed : Bool}
    (hmap : l.map Observed.withoutWidth = l'.map Observed.withoutWidth) {ts : List Observed}
    (h : Listed l closed ts) :
    ∃ ts', Listed l' closed ts' ∧
      ts'.map Observed.withoutWidth = ts.map Observed.withoutWidth := by
  induction ts generalizing l l' with
  | nil => exact ⟨[], listed_nil l' closed, rfl⟩
  | cons t ts ih =>
    cases l with
    | nil =>
      obtain rfl : l' = [] := List.map_eq_nil_iff.mp hmap.symm
      exact ⟨t :: ts, h, rfl⟩
    | cons seen l =>
      cases l' with
      | nil => cases hmap
      | cons seen' l' =>
        obtain ⟨hseen, hmap⟩ := List.cons.inj hmap
        obtain ⟨ts', hts', heq⟩ := ih hmap h.2
        refine ⟨seen' :: ts', ⟨rfl, hts'⟩, ?_⟩
        rw [List.map_cons, List.map_cons, heq, h.1, hseen]

/-- Fresh lexers with any two widths show the same tokens up to `get_width`. -/
theorem shows_fresh_withoutWidth {width width' : Int32} {rest : Bytes} (hrest : EOF ∉ rest)
    {ts : List Observed} (h : Shows (fresh width rest) ts) :
    ∃ ts', Shows (fresh width' rest) ts' ∧
      ts'.map Observed.withoutWidth = ts.map Observed.withoutWidth := by
  have hshows : ∀ w ts, Shows (fresh w rest) ts ↔
      Listed (tokens w (ch ' ' :: rest)).1 (tokens w (ch ' ' :: rest)).2 ts := by
    intro w ts
    have hclean : (fresh w rest).Clean := hrest
    exact shows_iff hclean ts
  obtain ⟨hmap, hclosed⟩ := tokens_withoutWidth width width' (ch ' ' :: rest)
  obtain ⟨ts', hts', heq⟩ := listed_withoutWidth hmap ((hshows width ts).mp h)
  rw [hclosed] at hts'
  exact ⟨ts', (hshows width' ts').mpr hts', heq⟩

/-! ## Where a call starts -/

/-- A lexer stands at a text: its lookahead is the first character, and the others are still in
the stream. -/
def At (lx : Lexer) : Bytes → Prop
  | [] => lx.last = EOF ∧ lx.is.good = false
  | c :: s => lx.last = c ∧ lx.is = Istream.ofBytes s

/-- A call of `next` starts at a text, behind white space. -/
def StartsAt (lx : Lexer) (s : Bytes) : Prop := At lx.skipSpaces s

theorem At.congr {lx lx' : Lexer} {s : Bytes} (h : At lx s) (hlast : lx'.last = lx.last)
    (his : lx'.is = lx.is) : At lx' s := by
  cases s with
  | nil => exact ⟨by rw [hlast]; exact h.1, by rw [his]; exact h.2⟩
  | cons c s => exact ⟨by rw [hlast]; exact h.1, by rw [his]; exact h.2⟩

theorem At.getLast {lx : Lexer} {c : UInt8} {s : Bytes} (h : At lx (c :: s)) :
    At lx.getLast s := by
  obtain ⟨_, his⟩ := h
  cases s with
  | nil => exact ⟨by rw [Lexer.getLast, his]; rfl, by rw [Lexer.getLast, his]; rfl⟩
  | cons d s => exact ⟨by rw [Lexer.getLast, his]; rfl, by rw [Lexer.getLast, his]; rfl⟩

theorem view_at : View At where
  last {lx s} h := by
    cases s with
    | nil => exact h.1
    | cons c s => exact h.1
  advance {lx c s} h hne := by
    have hlx : lx.last ≠ EOF := by
      rw [h.1]
      exact hne
    exact h.getLast.congr (advance_last hlx) (advance_is hlx)

theorem View.skipSpaces {P : Lexer → Bytes → Prop} (hv : View P) {lx : Lexer} {s : Bytes}
    (h : P lx s) : P lx.skipSpaces (s.dropWhile isspace) := by
  fun_induction Lexer.skipSpaces lx generalizing s with
  | case1 lx hspace ih =>
    have hne := ne_eof_of_isspace hspace
    obtain ⟨t, rfl⟩ := List.head?_eq_some_iff.mp ((hv.last_iff h hne).mp rfl)
    rw [List.dropWhile_cons_of_pos hspace]
    exact ih (hv.advance h hne)
  | case2 lx hspace =>
    cases s with
    | nil => exact h
    | cons c s =>
      have hlast : lx.last = c := hv.last h
      rw [List.dropWhile_cons_of_neg (by rwa [← hlast])]
      exact h

/-- A lexer that was just constructed starts behind the white space of its input. -/
theorem startsAt_start (input : Bytes) : StartsAt (start input) (input.dropWhile isspace) := by
  have hat : At (start input) (ch ' ' :: input) := ⟨rfl, rfl⟩
  have hskip := view_at.skipSpaces hat
  rwa [List.dropWhile_cons_of_pos (by decide)] at hskip

theorem completes_skipSpaces {lx : Lexer} {o : Outcome} :
    Completes lx.skipSpaces o ↔ Completes lx o := by
  have hidem : lx.skipSpaces.skipSpaces = lx.skipSpaces := by
    rw [skipSpaces, if_neg (not_isspace_skipSpaces lx)]
  have hnext : ∀ fuel, next fuel lx.skipSpaces = next fuel lx := by
    intro fuel
    cases fuel with
    | zero => rfl
    | succ fuel => rw [next, next, hidem]
  unfold Completes
  simp only [hnext]

theorem shows_skipSpaces {lx : Lexer} (ts : List Observed) :
    Shows lx.skipSpaces ts ↔ Shows lx ts := by
  cases ts with
  | nil => exact iff_of_true (shows_nil _) (shows_nil _)
  | cons t ts =>
    by_cases h : ∃ o, Completes lx o
    · obtain ⟨o, ho⟩ := h
      rw [shows_cons ho, shows_cons (completes_skipSpaces.mpr ho)]
    · have hnone : ∀ o, ¬Completes lx o := fun o ho => h ⟨o, ho⟩
      exact iff_of_false (not_shows_cons (fun o ho => hnone o (completes_skipSpaces.mp ho)) t ts)
        (not_shows_cons hnone t ts)

/-- Where a call starts at a text, that text is pending. -/
theorem StartsAt.pending {lx : Lexer} {c : UInt8} {s : Bytes} (h : StartsAt lx (c :: s))
    (hne : EOF ∉ c :: s) : lx.skipSpaces.Clean ∧ lx.skipSpaces.pending = c :: s := by
  obtain ⟨hlast, his⟩ := h
  have hc : c ≠ EOF := fun heq => hne (heq ▸ List.mem_cons_self)
  refine ⟨?_, ?_⟩
  · intro hmem
    rw [his] at hmem
    exact hne (List.mem_cons_of_mem c hmem)
  · rw [Lexer.pending, his, hlast, if_neg hc]
    rfl

/-- A lexer shows the same tokens as a fresh one if and only if their texts have the same. -/
theorem sameTokens_fresh {lx : Lexer} (hc : lx.Clean) {width : Int32} {rest : Bytes}
    (hrest : EOF ∉ rest) :
    SameTokens lx (fresh width rest) ↔ tokens lx.width lx.pending = tokens width rest := by
  have hfresh : (fresh width rest).Clean := hrest
  have hpending : (fresh width rest).pending = ch ' ' :: rest := rfl
  rw [sameTokens_iff hc hfresh, hpending,
    tokens_congr (tokenStart_space (by decide) rest)]
  rfl

theorem StartsAt.sameTokens_fresh {lx : Lexer} {c : UInt8} {s : Bytes} (h : StartsAt lx (c :: s))
    (hne : EOF ∉ c :: s) {width : Int32} {rest : Bytes} (hrest : EOF ∉ rest) :
    SameTokens lx (fresh width rest) ↔ tokens lx.width (c :: s) = tokens width rest := by
  obtain ⟨hclean, hpending⟩ := h.pending hne
  have hwidth : lx.skipSpaces.width = lx.width := (skips_skipSpaces lx).width_eq
  rw [← hpending, ← hwidth, ← Lexer.sameTokens_fresh hclean hrest]
  unfold SameTokens
  simp only [shows_skipSpaces]

/-- A call that starts at a token shows it, and leaves the text behind it. -/
theorem StartsAt.exists_completes {lx : Lexer} {c : UInt8} {s t : Bytes}
    (h : StartsAt lx (c :: s)) (hne : EOF ∉ c :: s) (hstart : tokenStart (c :: s) = some t) :
    ∃ o, Completes lx o ∧ o.2.Clean ∧ Shown lx.width t o := by
  obtain ⟨hclean, hpending⟩ := h.pending hne
  rw [← hpending] at hstart
  obtain ⟨o, ho⟩ := exists_scan_of_tokenStart hclean hstart
  obtain ⟨t', ht', hshown⟩ := ho.shows hclean
  rw [hstart] at ht'
  cases ht'
  rw [(skips_skipSpaces lx).width_eq] at hshown
  exact ⟨o, completes_skipSpaces.mp (completes_of_scan ho), hclean.of_suffix ho.rest_suffix, hshown⟩

end Lexer

end P4LS
