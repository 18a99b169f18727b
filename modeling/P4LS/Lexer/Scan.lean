import P4LS.Library.Run
import P4LS.Lexer.Pending

/-!
# Calls without a bound

`Scan` is `next` with the bound removed: one constructor for each way through
`next` and `read_other`, the recursive calls as premises.  `completes_iff_scan`
says that a call completes exactly when it has a derivation, so a property of
the calls that complete is an induction over `Scan`.
-/

namespace P4LS

open Bytes

namespace Lexer

/-! ## The first characters of a call -/

/-- The first character of a call that is not white space, and what follows it. -/
theorem pending_first {lx : Lexer} (hc : lx.Clean) (hne : lx.skipSpaces.last ≠ EOF) :
    lx.pending.dropWhile isspace = lx.skipSpaces.last :: lx.skipSpaces.advance.pending := by
  have hclean := hc.skips (skips_skipSpaces lx)
  rw [← pending_skipSpaces hc, pending_advance hclean]
  exact pending_eq_cons _ hne

theorem Clean.first {lx : Lexer} (hc : lx.Clean) : lx.skipSpaces.advance.Clean :=
  (hc.skips (skips_skipSpaces lx)).advance

theorem pending_second {lx : Lexer} {c : UInt8} (h : lx.last = c) (hne : c ≠ EOF) :
    lx.pending = c :: lx.pending.tail := by
  rw [← h]
  exact pending_eq_cons _ (by rw [h]; exact hne)

/-! ## Block comments -/

/-- The loop over a block comment ends, and leaves `lx'`. -/
inductive BlockEnds : Lexer → Lexer → Prop where
  | stop {lx : Lexer} (h : lx.blockRound.last = 0) : BlockEnds lx lx.blockRound
  | round {lx lx' : Lexer} (h : lx.blockRound.last ≠ 0) (rest : BlockEnds lx.blockRound lx') :
      BlockEnds lx lx'

theorem blockLoop_le {fuel fuel' : Nat} {lx lx' : Lexer} (h : blockLoop fuel lx = some lx')
    (hle : fuel ≤ fuel') : blockLoop fuel' lx = some lx' := by
  induction hle with
  | refl => exact h
  | step _ ih => exact blockLoop_succ ih

theorem blockEnds_iff {lx lx' : Lexer} :
    BlockEnds lx lx' ↔ ∃ fuel, blockLoop fuel lx = some lx' := by
  constructor
  · intro h
    induction h with
    | stop h => exact ⟨1, by rw [blockLoop, if_neg (by simpa using h)]⟩
    | round h _ ih =>
      obtain ⟨fuel, hfuel⟩ := ih
      exact ⟨fuel + 1, by rw [blockLoop, if_pos h, hfuel]⟩
  · intro hends
    obtain ⟨fuel, h⟩ := hends
    induction fuel generalizing lx with
    | zero => cases h
    | succ fuel ih =>
      rw [blockLoop] at h
      by_cases hz : lx.blockRound.last = 0
      · rw [if_neg (by simpa using hz)] at h
        cases h
        exact .stop hz
      · rw [if_pos hz] at h
        exact .round hz (ih h)

/-- Where the loop ends, what follows the comment is pending behind the lookahead. -/
theorem BlockEnds.blockEnd_eq {lx lx' : Lexer} (h : BlockEnds lx lx') (hc : lx.Clean) :
    blockEnd false lx.pending.tail = some lx'.pending.tail ∧ lx'.Clean := by
  induction h with
  | @stop lx h =>
    have hp := pending_eq_cons lx.blockRound (by rw [h]; decide)
    rw [blockEnd_step, ← pending_blockRound hc, hp, h]
    exact ⟨rfl, blockRound_clean hc⟩
  | @round lx lx' h _ ih =>
    obtain ⟨ih, hclean⟩ := ih (blockRound_clean hc)
    refine ⟨?_, hclean⟩
    rw [blockEnd_step, ← pending_blockRound hc]
    cases hp : lx.blockRound.pending with
    | nil =>
      rw [hp] at ih
      cases ih
    | cons c s =>
      rw [last_eq_of_pending hp] at h
      rw [hp] at ih
      simp only [if_neg h]
      exact ih

/-- A comment that ends in the text makes the loop end. -/
theorem exists_blockEnds {lx : Lexer} (hc : lx.Clean) {t : Bytes}
    (h : blockEnd false lx.pending.tail = some t) : ∃ lx', BlockEnds lx lx' := by
  induction hn : lx.pending.tail.length using Nat.strong_induction_on generalizing lx with
  | _ n ih =>
    by_cases hz : lx.blockRound.last = 0
    · exact ⟨_, .stop hz⟩
    rw [blockEnd_step, ← pending_blockRound hc] at h
    have hshort : lx.blockRound.pending.length ≤ lx.pending.tail.length := by
      rw [pending_blockRound hc]
      exact blockStep_length _
    cases hp : lx.blockRound.pending with
    | nil =>
      rw [hp] at h
      cases h
    | cons c s =>
      rw [last_eq_of_pending hp] at hz
      rw [hp] at h
      simp only [if_neg hz] at h
      rw [hp] at hshort
      obtain ⟨lx', hlx'⟩ := ih lx.blockRound.pending.tail.length
        (by rw [hp, ← hn]; exact hshort) (blockRound_clean hc) (by rw [hp]; exact h) rfl
      exact ⟨lx', .round (by rw [last_eq_of_pending hp]; exact hz) hlx'⟩

theorem readComment_eq_some {fuel : Nat} {lx lx' : Lexer} (h : lx.last ≠ ch '/') :
    lx.readComment fuel = some lx' ↔ ∃ lx₁, blockLoop fuel lx = some lx₁ ∧ lx' = lx₁.advance := by
  rw [readComment, if_neg h, Option.map_eq_some_iff]
  exact ⟨fun ⟨a, h, e⟩ => ⟨a, h, e.symm⟩, fun ⟨a, h, e⟩ => ⟨a, h, e.symm⟩⟩

/-! ## The relation -/

/-- The first character of a word. -/
def isWordStart (c : UInt8) : Bool := isalpha c || c == ch '_'

/-- The first characters `read_other` does not hand on to a reader of its own. -/
def isOperatorStart (c : UInt8) : Bool :=
  c != EOF && !isWordStart c && !isdigit c && c != ch '"' && c != ch '#'

inductive Scan : Lexer → Outcome → Prop where
  | finish {lx : Lexer} (h : lx.skipSpaces.last = EOF) :
      Scan lx (.ok .tEnd, lx.skipSpaces)
  | word {lx : Lexer} (h : isWordStart lx.skipSpaces.last) :
      Scan lx (.ok lx.skipSpaces.readIdentifier.1, lx.skipSpaces.readIdentifier.2)
  | number {lx : Lexer} (h : isdigit lx.skipSpaces.last) :
      Scan lx lx.skipSpaces.readNumber
  | string {lx : Lexer} (h : lx.skipSpaces.last = ch '"') :
      Scan lx (.ok lx.skipSpaces.advance.readString.1, lx.skipSpaces.advance.readString.2)
  | locationEnd {lx : Lexer} (h : lx.skipSpaces.last = ch '#')
      (hend : lx.skipSpaces.advance.readLocation.last = EOF) :
      Scan lx (.ok .tEnd, lx.skipSpaces.advance.readLocation)
  | location {lx : Lexer} {o : Outcome} (h : lx.skipSpaces.last = ch '#')
      (hend : lx.skipSpaces.advance.readLocation.last ≠ EOF)
      (hnext : Scan lx.skipSpaces.advance.readLocation o) : Scan lx o
  | lineComment {lx : Lexer} {o : Outcome} (h : lx.skipSpaces.last = ch '/')
      (hl : lx.skipSpaces.advance.last = ch '/')
      (hnext : Scan lx.skipSpaces.advance.readLocation o) : Scan lx o
  | blockComment {lx lx' : Lexer} {o : Outcome} (h : lx.skipSpaces.last = ch '/')
      (hl : lx.skipSpaces.advance.last = ch '*')
      (hblock : BlockEnds lx.skipSpaces.advance lx') (hnext : Scan lx'.advance o) : Scan lx o
  | operator {lx : Lexer} (h : isOperatorStart lx.skipSpaces.last)
      (hc : ¬(lx.skipSpaces.last = ch '/' ∧
        (lx.skipSpaces.advance.last = ch '/' ∨ lx.skipSpaces.advance.last = ch '*'))) :
      Scan lx (.ok (readOperator lx.skipSpaces.last lx.skipSpaces.advance).1,
        (readOperator lx.skipSpaces.last lx.skipSpaces.advance).2)

theorem isWordStart_iff {c : UInt8} : isWordStart c = true ↔ isalpha c = true ∨ c = ch '_' := by
  simp [isWordStart]

theorem isWordStart_of_isdigit {c : UInt8} (h : isdigit c = true) : isWordStart c = false := by
  have hall := imp_of_all_bytes (p := isdigit) (q := fun c => !isWordStart c)
    (by decide +kernel) c h
  simpa using hall

theorem isdigit_of_isWordStart {c : UInt8} (h : isWordStart c = true) : isdigit c = false := by
  by_contra hdigit
  rw [isWordStart_of_isdigit (by simpa using hdigit)] at h
  cases h

theorem isWordChar_of_isWordStart {c : UInt8} (h : isWordStart c = true) :
    isWordChar c = true := by
  rcases isWordStart_iff.mp h with halpha | rfl
  · rw [isWordChar, isalnum, halpha, Bool.true_or, Bool.true_or]
  · decide

theorem isWordChar_of_isdigit {c : UInt8} (h : isdigit c = true) : isWordChar c = true := by
  rw [isWordChar, isalnum, h, Bool.or_true, Bool.true_or]

theorem isspace_of_isWordChar {c : UInt8} (h : isWordChar c = true) : isspace c = false := by
  have hall := imp_of_all_bytes (p := isWordChar) (q := fun c => !isspace c)
    (by decide +kernel) c h
  simpa using hall

theorem isWordChar_of_isspace {c : UInt8} (h : isspace c = true) : isWordChar c = false := by
  by_contra hchar
  rw [isspace_of_isWordChar (by simpa using hchar)] at h
  cases h

theorem isspace_of_isWordStart {c : UInt8} (h : isWordStart c = true) : isspace c = false :=
  isspace_of_isWordChar (isWordChar_of_isWordStart h)

theorem ne_eof_of_isWordStart {c : UInt8} (h : isWordStart c = true) : c ≠ EOF :=
  ne_of_class h (by decide)

theorem ne_eof_of_isdigit {c : UInt8} (h : isdigit c = true) : c ≠ EOF :=
  ne_of_class h (by decide)

theorem ne_eof_of_isOperatorStart {c : UInt8} (h : isOperatorStart c = true) : c ≠ EOF :=
  ne_of_class h (by decide)

/-- A call completes at once, or there is a comment or a line to skip before the token. -/
theorem exists_scan_or_skips (lx : Lexer) :
    (∃ o, Scan lx o) ∨ lx.skipSpaces.last = ch '#' ∨
      lx.skipSpaces.last = ch '/' ∧
        (lx.skipSpaces.advance.last = ch '/' ∨ lx.skipSpaces.advance.last = ch '*') := by
  by_cases hend : lx.skipSpaces.last = EOF
  · exact .inl ⟨_, .finish hend⟩
  by_cases hword : isWordStart lx.skipSpaces.last = true
  · exact .inl ⟨_, .word hword⟩
  by_cases hnumber : isdigit lx.skipSpaces.last = true
  · exact .inl ⟨_, .number hnumber⟩
  by_cases hquote : lx.skipSpaces.last = ch '"'
  · exact .inl ⟨_, .string hquote⟩
  by_cases hhash : lx.skipSpaces.last = ch '#'
  · exact .inr (.inl hhash)
  have hoperator : isOperatorStart lx.skipSpaces.last = true := by
    simp [isOperatorStart, hend, hword, hnumber, hquote, hhash]
  by_cases hcomment : lx.skipSpaces.last = ch '/' ∧
      (lx.skipSpaces.advance.last = ch '/' ∨ lx.skipSpaces.advance.last = ch '*')
  · exact .inr (.inr hcomment)
  · exact .inl ⟨_, .operator hoperator hcomment⟩

/-! ## Adequacy -/

theorem scan_of_next {fuel : Nat} {lx : Lexer} {o : Outcome} (h : next fuel lx = some o) :
    Scan lx o := by
  induction fuel generalizing lx o with
  | zero => cases h
  | succ fuel ih =>
    rw [next, readToken] at h
    by_cases hend : lx.skipSpaces.last = EOF
    · rw [if_pos hend] at h
      cases h
      exact .finish hend
    rw [if_neg hend] at h
    by_cases hword : isalpha lx.skipSpaces.last ∨ lx.skipSpaces.last = ch '_'
    · rw [if_pos hword] at h
      cases h
      exact .word (isWordStart_iff.mpr hword)
    rw [if_neg hword] at h
    by_cases hnumber : isdigit lx.skipSpaces.last
    · rw [if_pos hnumber] at h
      cases h
      exact .number hnumber
    rw [if_neg hnumber, readOther, readSwitch] at h
    by_cases hquote : lx.skipSpaces.last = ch '"'
    · rw [if_pos hquote] at h
      cases h
      exact .string hquote
    rw [if_neg hquote] at h
    by_cases hhash : lx.skipSpaces.last = ch '#'
    · rw [if_pos hhash] at h
      by_cases heof : lx.skipSpaces.advance.readLocation.last = EOF
      · rw [if_pos heof] at h
        cases h
        exact .locationEnd hhash heof
      · rw [if_neg heof] at h
        exact .location hhash heof (ih h)
    rw [if_neg hhash] at h
    by_cases hcomment : lx.skipSpaces.last = ch '/' ∧
        (lx.skipSpaces.advance.last = ch '/' ∨ lx.skipSpaces.advance.last = ch '*')
    · rw [if_pos hcomment] at h
      obtain ⟨lx₁, hc, hn⟩ := Option.bind_eq_some_iff.mp h
      by_cases hline : lx.skipSpaces.advance.last = ch '/'
      · rw [readComment, if_pos hline] at hc
        cases hc
        exact .lineComment hcomment.1 hline (ih hn)
      · obtain ⟨lx₂, hb, rfl⟩ := (readComment_eq_some hline).mp hc
        exact .blockComment hcomment.1 (hcomment.2.resolve_left hline)
          (blockEnds_iff.mpr ⟨fuel, hb⟩) (ih hn)
    · rw [if_neg hcomment] at h
      cases h
      refine .operator ?_ hcomment
      rw [← isWordStart_iff] at hword
      simp [isOperatorStart, hend, hword, hnumber, hquote, hhash]

/-- What `next` does at a character that starts neither a word nor a number. -/
theorem next_of_other {fuel : Nat} {lx : Lexer} (hend : lx.skipSpaces.last ≠ EOF)
    (hword : isWordStart lx.skipSpaces.last = false)
    (hnumber : isdigit lx.skipSpaces.last = false) :
    next (fuel + 1) lx =
      readSwitch fuel (next fuel) lx.skipSpaces.last lx.skipSpaces.advance := by
  have hw : ¬(isalpha lx.skipSpaces.last ∨ lx.skipSpaces.last = ch '_') := by
    rw [← isWordStart_iff, hword]
    exact Bool.false_ne_true
  rw [next, readToken, if_neg hend, if_neg hw, hnumber, if_neg Bool.false_ne_true, readOther]

/-- The case of a literal character that the switch names. -/
theorem next_of_char {fuel : Nat} {lx : Lexer} {c : UInt8} (h : lx.skipSpaces.last = c)
    (hc : (c != EOF && !isWordStart c && !isdigit c) = true) :
    next (fuel + 1) lx = readSwitch fuel (next fuel) c lx.skipSpaces.advance := by
  simp only [Bool.and_eq_true, bne_iff_ne, ne_eq, Bool.not_eq_true'] at hc
  rw [← h] at hc ⊢
  exact next_of_other hc.1.1 hc.1.2 hc.2

theorem completes_of_scan {lx : Lexer} {o : Outcome} (h : Scan lx o) : Completes lx o := by
  induction h with
  | @finish lx h => exact ⟨1, by rw [next, readToken, if_pos h]⟩
  | @word lx h =>
    refine ⟨1, ?_⟩
    rw [next, readToken, if_neg (ne_eof_of_isWordStart h), if_pos (isWordStart_iff.mp h)]
  | @number lx h =>
    refine ⟨1, ?_⟩
    have hw : ¬(isalpha lx.skipSpaces.last ∨ lx.skipSpaces.last = ch '_') := by
      rw [← isWordStart_iff, isWordStart_of_isdigit h]
      exact Bool.false_ne_true
    rw [next, readToken, if_neg (ne_eof_of_isdigit h), if_neg hw, if_pos h]
  | @string lx h =>
    refine ⟨1, ?_⟩
    rw [next_of_char h (by decide), readSwitch, if_pos rfl]
  | @locationEnd lx h hend =>
    refine ⟨1, ?_⟩
    rw [next_of_char h (by decide), readSwitch, if_neg (by decide), if_pos rfl, if_pos hend]
  | @location lx o h hend _ ih =>
    obtain ⟨fuel, hfuel⟩ := ih
    refine ⟨fuel + 1, ?_⟩
    rw [next_of_char h (by decide), readSwitch, if_neg (by decide), if_pos rfl, if_neg hend,
      hfuel]
  | @lineComment lx o h hl _ ih =>
    obtain ⟨fuel, hfuel⟩ := ih
    refine ⟨fuel + 1, ?_⟩
    rw [next_of_char h (by decide), readSwitch, if_neg (by decide), if_neg (by decide),
      if_pos ⟨rfl, .inl hl⟩, readComment, if_pos hl, Option.bind_some]
    exact hfuel
  | @blockComment lx lx' o h hl hblock _ ih =>
    obtain ⟨fuel, hfuel⟩ := ih
    obtain ⟨fuel', hfuel'⟩ := blockEnds_iff.mp hblock
    refine ⟨max fuel fuel' + 1, ?_⟩
    have hread : lx.skipSpaces.advance.readComment (max fuel fuel') = some lx'.advance :=
      (readComment_eq_some (by rw [hl]; decide)).mpr
        ⟨lx', blockLoop_le hfuel' (Nat.le_max_right ..), rfl⟩
    rw [next_of_char h (by decide), readSwitch, if_neg (by decide), if_neg (by decide),
      if_pos ⟨rfl, .inr hl⟩, hread, Option.bind_some]
    exact next_le hfuel (Nat.le_max_left ..)
  | @operator lx h hc =>
    refine ⟨1, ?_⟩
    simp only [isOperatorStart, Bool.and_eq_true, bne_iff_ne, ne_eq, Bool.not_eq_true'] at h
    obtain ⟨⟨⟨⟨hend, hword⟩, hnumber⟩, hquote⟩, hhash⟩ := h
    rw [next_of_other hend hword hnumber, readSwitch, if_neg hquote, if_neg hhash, if_neg hc]

theorem completes_iff_scan {lx : Lexer} {o : Outcome} : Completes lx o ↔ Scan lx o :=
  ⟨fun ⟨_, h⟩ => scan_of_next h, completes_of_scan⟩

/-! ## A call only extracts -/

theorem Skips.rest_suffix {p : UInt8 → Bool} {lx lx' : Lexer} (h : Skips p lx lx') :
    lx'.is.rest <:+ lx.is.rest := by
  induction h with
  | refl _ => exact List.suffix_rfl
  | @step lx _ _ _ ih => exact ih.trans (advance_suffix lx)

theorem blockRound_suffix (lx : Lexer) : lx.blockRound.is.rest <:+ lx.is.rest := by
  have hstars := (skips_skipStars lx.advance).rest_suffix.trans (advance_suffix lx)
  unfold blockRound
  split
  · split
    · exact hstars
    · exact hstars
  · exact advance_suffix lx

theorem readLocation_suffix (lx : Lexer) : lx.readLocation.is.rest <:+ lx.is.rest :=
  (advance_suffix { lx with is := lx.is.getLine }).trans (getLine_suffix lx)

theorem BlockEnds.rest_suffix {lx lx' : Lexer} (h : BlockEnds lx lx') :
    lx'.is.rest <:+ lx.is.rest := by
  induction h with
  | stop _ => exact blockRound_suffix _
  | round _ _ ih => exact ih.trans (blockRound_suffix _)

theorem first_suffix (lx : Lexer) : lx.skipSpaces.advance.is.rest <:+ lx.is.rest :=
  (advance_suffix _).trans (skips_skipSpaces lx).rest_suffix

theorem Scan.rest_suffix {lx : Lexer} {o : Outcome} (h : Scan lx o) :
    o.2.is.rest <:+ lx.is.rest := by
  induction h with
  | @finish lx _ => exact (skips_skipSpaces lx).rest_suffix
  | @word lx _ =>
    exact (wordLoop_suffix { lx.skipSpaces with text := _ }).trans
      (skips_skipSpaces lx).rest_suffix
  | @number lx _ =>
    obtain ⟨value, width, lx', hskips, hstate⟩ := readNumber_state lx.skipSpaces
    rw [hstate]
    exact hskips.rest_suffix.trans (first_suffix lx)
  | @string lx _ =>
    exact (stringLoop_suffix (lx.skipSpaces.advance.withText [])).trans (first_suffix lx)
  | @locationEnd lx _ _ => exact (readLocation_suffix _).trans (first_suffix lx)
  | @location lx _ _ _ _ ih => exact ih.trans ((readLocation_suffix _).trans (first_suffix lx))
  | @lineComment lx _ _ _ _ ih =>
    exact ih.trans ((readLocation_suffix _).trans (first_suffix lx))
  | @blockComment lx lx' _ _ _ hblock _ ih =>
    exact ih.trans ((advance_suffix lx').trans (hblock.rest_suffix.trans (first_suffix lx)))
  | @operator lx _ _ => exact (skips_readOperator _ _).rest_suffix.trans (first_suffix lx)

/-! ## Runs -/

/-- Calls one after another, each from the state the one before it left. -/
inductive Calls : Lexer → List Outcome → Lexer → Prop where
  | nil (lx : Lexer) : Calls lx [] lx
  | cons {lx lx' : Lexer} {o : Outcome} {os : List Outcome} (h : Completes lx o)
      (rest : Calls o.2 os lx') : Calls lx (o :: os) lx'

/-- A call as a step with its outcome for a label. -/
def CallStep (lx : Lexer) (o : Outcome) (lx' : Lexer) : Prop := Completes lx o ∧ lx' = o.2

theorem callStep_deterministic (lx : Lexer) (o : Outcome) (lx₁ lx₂ : Lexer)
    (h : CallStep lx o lx₁) (h' : CallStep lx o lx₂) : lx₁ = lx₂ := h.2.trans h'.2.symm

theorem calls_iff_run {lx lx' : Lexer} {os : List Outcome} :
    Calls lx os lx' ↔ Run CallStep lx os lx' := by
  constructor
  · intro h
    induction h with
    | nil lx => exact .nil lx
    | cons h _ ih => exact .cons ⟨h, rfl⟩ ih
  · intro h
    induction h with
    | nil lx => exact .nil lx
    | cons step _ ih =>
      obtain ⟨hcall, rfl⟩ := step
      exact .cons hcall ih

theorem Calls.append {lx₁ lx₂ lx₃ : Lexer} {os os' : List Outcome} (h : Calls lx₁ os lx₂)
    (h' : Calls lx₂ os' lx₃) : Calls lx₁ (os ++ os') lx₃ :=
  calls_iff_run.mpr ((calls_iff_run.mp h).append (calls_iff_run.mp h'))

theorem Calls.rest_suffix {lx lx' : Lexer} {os : List Outcome} (h : Calls lx os lx') :
    lx'.is.rest <:+ lx.is.rest := by
  induction h with
  | nil _ => exact List.suffix_rfl
  | cons hcall _ ih => exact ih.trans (completes_iff_scan.mp hcall).rest_suffix

theorem Calls.snoc_inv {lx lx' : Lexer} {os : List Outcome} {o : Outcome}
    (h : Calls lx (os ++ [o]) lx') :
    ∃ lx₁, Calls lx os lx₁ ∧ Completes lx₁ o ∧ lx' = o.2 := by
  obtain ⟨lx₁, hcalls, hcall⟩ := (calls_iff_run.mp h).snoc_inv
  exact ⟨lx₁, calls_iff_run.mpr hcalls, hcall⟩

end Lexer

end P4LS
