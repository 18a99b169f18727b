import P4LS.Lexer.Conversions

/-!
# Literals of a run

A call of `next` either gets to a numeric literal, or it returns a token and leaves the width
alone.  So only a literal can make a call throw, and what a literal is read as depends on the
calls before it by the width alone.
-/

namespace P4LS

open Bytes

namespace Lexer

/-- The call of `next` gets to a numeric literal, where `read_number` is called: behind white
space, comments and the lines of a location. -/
inductive Meets : Lexer → Lexer → Prop where
  | here {lx : Lexer} (h : isdigit lx.skipSpaces.last) : Meets lx lx.skipSpaces
  | location {lx lx' : Lexer} (h : lx.skipSpaces.last = ch '#')
      (hend : lx.skipSpaces.advance.readLocation.last ≠ EOF)
      (hnext : Meets lx.skipSpaces.advance.readLocation lx') : Meets lx lx'
  | lineComment {lx lx' : Lexer} (h : lx.skipSpaces.last = ch '/')
      (hl : lx.skipSpaces.advance.last = ch '/')
      (hnext : Meets lx.skipSpaces.advance.readLocation lx') : Meets lx lx'
  | blockComment {lx lx₁ lx' : Lexer} (h : lx.skipSpaces.last = ch '/')
      (hl : lx.skipSpaces.advance.last = ch '*') (hblock : BlockEnds lx.skipSpaces.advance lx₁)
      (hnext : Meets lx₁.advance lx') : Meets lx lx'

/-- The text `read_number` collects. -/
def numberText (lx : Lexer) : Bytes := (numberLoop [lx.last] lx.advance).1

/-! ## One call -/

theorem Meets.scan {lx lx' : Lexer} (h : Meets lx lx') : Scan lx lx'.readNumber := by
  induction h with
  | here h => exact .number h
  | location h hend _ ih => exact .location h hend ih
  | lineComment h hl _ ih => exact .lineComment h hl ih
  | blockComment h hl hblock _ ih => exact .blockComment h hl hblock ih

/-- The literal a call gets to is what it returns. -/
theorem Meets.eq_readNumber {lx lx' : Lexer} (h : Meets lx lx') {o : Outcome}
    (ho : Completes lx o) : o = lx'.readNumber :=
  ho.unique (completes_of_scan h.scan)

/-- What a call does to a lexer of this width: it gets to a literal, still with this width, or it
returns a token and leaves the width. -/
def Passes (width : Int32) (lx : Lexer) (o : Outcome) : Prop :=
  (∃ lx', Meets lx lx' ∧ lx'.width = width ∧ o = lx'.readNumber) ∨
    (o.1.Returns ∧ o.2.width = width)

theorem Scan.passes {lx : Lexer} {o : Outcome} (h : Scan lx o) : Passes lx.width lx o := by
  induction h with
  | @finish lx h => exact .inr ⟨Except.returns_ok _, (skips_skipSpaces lx).width_eq⟩
  | @word lx h =>
    have hwidth : (lx.skipSpaces.readIdentifier.2).width = lx.width :=
      (wordLoop_width { lx.skipSpaces with text := _ }).trans (skips_skipSpaces lx).width_eq
    exact .inr ⟨Except.returns_ok _, hwidth⟩
  | @number lx h => exact .inl ⟨_, .here h, (skips_skipSpaces lx).width_eq, rfl⟩
  | @string lx h =>
    have hwidth : (lx.skipSpaces.advance.readString.2).width = lx.width :=
      (stringLoop_width (lx.skipSpaces.advance.withText [])).trans (first_width lx)
    exact .inr ⟨Except.returns_ok _, hwidth⟩
  | @locationEnd lx h hend =>
    exact .inr ⟨Except.returns_ok _, (readLocation_width _).trans (first_width lx)⟩
  | @location lx o h hend _ ih =>
    rw [readLocation_width, first_width] at ih
    exact ih.imp_left fun ⟨lx', hmeets, hrest⟩ => ⟨lx', .location h hend hmeets, hrest⟩
  | @lineComment lx o h hl _ ih =>
    rw [readLocation_width, first_width] at ih
    exact ih.imp_left fun ⟨lx', hmeets, hrest⟩ => ⟨lx', .lineComment h hl hmeets, hrest⟩
  | @blockComment lx lx₁ o h hl hblock _ ih =>
    rw [advance_width, hblock.width_eq, first_width] at ih
    exact ih.imp_left fun ⟨lx', hmeets, hrest⟩ => ⟨lx', .blockComment h hl hblock hmeets, hrest⟩
  | @operator lx h hcomment =>
    exact .inr ⟨Except.returns_ok _, (skips_readOperator _ _).width_eq.trans (first_width lx)⟩

/-! ## Exceptions -/

/-- The literal that the call gets to, if it gets to one, converts. -/
def LiteralConverts (lx : Lexer) : Prop :=
  ∀ lx', Meets lx lx' → ∀ sm, matchNumber lx'.numberText = some sm → sm.Converts

/-- A call throws if and only if it gets to a literal that does not convert. -/
theorem returns_iff_literalConverts {lx : Lexer} {o : Outcome} (h : Completes lx o) :
    o.1.Returns ↔ LiteralConverts lx := by
  constructor
  · intro hreturns lx' hmeets
    rw [hmeets.eq_readNumber h, readNumber_eq] at hreturns
    exact evalNumber_returns_iff.mp hreturns
  · intro hconverts
    rcases (completes_iff_scan.mp h).passes with ⟨lx', hmeets, _, rfl⟩ | ⟨hreturns, _⟩
    · rw [readNumber_eq]
      exact evalNumber_returns_iff.mpr (hconverts lx' hmeets)
    · exact hreturns

/-- In a run over any input no call throws if and only if every literal that a call gets to
converts. -/
theorem never_throws_iff {input : Bytes} {os : List Outcome} {lx : Lexer}
    (h : Calls (start input) os lx) :
    (∀ o ∈ os, o.1.Returns) ↔ Run.Throughout CallStep LiteralConverts (start input) os :=
  Run.forall_label_iff callStep_deterministic
    (fun _ _ _ step => returns_iff_literalConverts step.1) (calls_iff_run.mp h)

/-- A lexer that stands at a literal returns what it reads of it. -/
theorem completes_of_isRun {lx : Lexer} {run rest : Bytes} (hrun : IsRun run rest)
    (h : StartsAt lx (run ++ rest)) : Completes lx lx.skipSpaces.readNumber := by
  cases run with
  | nil => cases hrun.first
  | cons c s =>
    have hlast : lx.skipSpaces.last = c := h.1
    have hdigit : isdigit c = true := hrun.first
    exact completes_of_scan (.number (by rw [hlast]; exact hdigit))

theorem never_throws_iff_seven :
    (∀ o ∈ [(start (str "7;")).skipSpaces.readNumber], o.1.Returns) ↔
      Run.Throughout CallStep LiteralConverts (start (str "7;"))
        [(start (str "7;")).skipSpaces.readNumber] := by
  have hrun : IsRun (str "7") (str ";") := ⟨rfl, by decide, rfl⟩
  have hcall := completes_of_isRun hrun (startsAt_start (str "7;"))
  exact never_throws_iff (.cons hcall (.nil _))

/-- The first call over a number of eleven digits throws. -/
theorem not_never_throws_wide :
    ∃ os lx, Calls (start (str "99999999999")) os lx ∧ ¬∀ o ∈ os, o.1.Returns := by
  have hrun : IsRun (str "99999999999") [] := ⟨rfl, by decide, rfl⟩
  have hat : At (start (str "99999999999")).skipSpaces (str "99999999999" ++ []) :=
    startsAt_start (str "99999999999")
  have hthrows : ∀ lx : Lexer,
      (evalNumber (str "99999999999") lx).1 = .error .outOfRange := fun lx => rfl
  refine ⟨_, _, .cons (completes_of_isRun hrun hat) (.nil _), fun hreturns => ?_⟩
  have hfirst := hreturns _ List.mem_cons_self
  rw [hrun.readNumber_eq hat, hthrows] at hfirst
  exact Except.not_returns_error _ hfirst

/-! ## The width from before -/

/-- Two lexers read a literal alike: the token is the same, and for a number the value and the
width are, which is 32 where the literal has none. -/
structure ReadAlike (run : Bytes) (lx₁ lx₂ : Lexer) : Prop where
  kind : lx₁.readNumber.1 = lx₂.readNumber.1
  value : lx₁.readNumber.1 = .ok .tNumber → lx₁.readNumber.2.value = lx₂.readNumber.2.value
  width : lx₁.readNumber.1 = .ok .tNumber → lx₁.readNumber.2.width = lx₂.readNumber.2.width
  unsized : ∀ sm, matchNumber run = some sm → sm.sized = none →
    lx₁.readNumber.1 = .ok .tNumber →
      lx₁.readNumber.2.width = 32 ∧ lx₂.readNumber.2.width = 32

/-- An accepted literal without a width of its own. -/
def TakesWidth (run : Bytes) : Prop :=
  ∃ sm, matchNumber run = some sm ∧ sm.Accepted ∧ sm.sized = none

/-- Two lexers that stand at the same literal read it alike if and only if it has a width of its
own, or is not accepted, or both still have the width 32. -/
theorem readAlike_iff {run rest₁ rest₂ : Bytes} {lx₁ lx₂ : Lexer} (hrun₁ : IsRun run rest₁)
    (h₁ : At lx₁ (run ++ rest₁)) (hrun₂ : IsRun run rest₂) (h₂ : At lx₂ (run ++ rest₂)) :
    ReadAlike run lx₁ lx₂ ↔ (TakesWidth run → lx₁.width = 32 ∧ lx₂.width = 32) := by
  have hread₁ := hrun₁.readNumber_eq h₁
  have hread₂ := hrun₂.readNumber_eq h₂
  have hseen := evalNumber_withoutWidth run (numberLoop [lx₁.last] lx₁.advance).2
    (numberLoop [lx₂.last] lx₂.advance).2
  have hkind : lx₁.readNumber.1 = lx₂.readNumber.1 := by
    rw [hread₁, hread₂]
    exact congrArg Observed.kind hseen
  -- what an accepted literal leaves, in both lexers
  have haccepted : ∀ sm, matchNumber run = some sm → sm.Accepted →
      lx₁.readNumber.2.value = lx₂.readNumber.2.value ∧
        lx₁.readNumber.2.width = sm.widthOr lx₁.width ∧
        lx₂.readNumber.2.width = sm.widthOr lx₂.width := by
    intro sm hmatch haccepted
    obtain ⟨hvalue₁, hwidth₁⟩ := evalNumber_accepted hmatch haccepted
      (numberLoop [lx₁.last] lx₁.advance).2
    obtain ⟨hvalue₂, hwidth₂⟩ := evalNumber_accepted hmatch haccepted
      (numberLoop [lx₂.last] lx₂.advance).2
    rw [numberLoop_width, ← hread₁] at hwidth₁
    rw [numberLoop_width, ← hread₂] at hwidth₂
    rw [← hread₁] at hvalue₁
    rw [← hread₂] at hvalue₂
    exact ⟨Int32.toInt_inj.mp (hvalue₁.trans hvalue₂.symm), hwidth₁, hwidth₂⟩
  have hnumber : lx₁.readNumber.1 = .ok .tNumber ↔
      ∃ sm, matchNumber run = some sm ∧ sm.Accepted := by
    rw [hread₁]
    exact evalNumber_number_iff
  constructor
  · intro halike htakes
    obtain ⟨sm, hmatch, haccept, hsized⟩ := htakes
    obtain ⟨_, hwidth₁, hwidth₂⟩ := haccepted sm hmatch haccept
    have hunsized := halike.unsized sm hmatch hsized (hnumber.mpr ⟨sm, hmatch, haccept⟩)
    rw [hwidth₁, hwidth₂, NumberMatch.widthOr, NumberMatch.widthOr, hsized] at hunsized
    exact hunsized
  · intro hleft
    refine ⟨hkind, fun h => ?_, fun h => ?_, fun sm hmatch hsized h => ?_⟩
    · obtain ⟨sm, hmatch, haccept⟩ := hnumber.mp h
      exact (haccepted sm hmatch haccept).1
    · obtain ⟨sm, hmatch, haccept⟩ := hnumber.mp h
      obtain ⟨_, hwidth₁, hwidth₂⟩ := haccepted sm hmatch haccept
      rw [hwidth₁, hwidth₂]
      cases hsized : sm.sized with
      | none =>
        obtain ⟨hleft₁, hleft₂⟩ := hleft ⟨sm, hmatch, haccept, hsized⟩
        rw [hleft₁, hleft₂]
      | some sized =>
        rw [NumberMatch.widthOr, NumberMatch.widthOr, hsized]
        rfl
    · obtain ⟨sm', hmatch', haccept⟩ := hnumber.mp h
      rw [hmatch, Option.some.injEq] at hmatch'
      subst hmatch'
      obtain ⟨_, hwidth₁, hwidth₂⟩ := haccepted sm hmatch haccept
      rw [hwidth₁, hwidth₂, NumberMatch.widthOr, NumberMatch.widthOr, hsized]
      exact hleft ⟨sm, hmatch, haccept, hsized⟩

theorem readAlike_iff_sized :
    ReadAlike (str "8w1") (start (str "8w1;")).skipSpaces (start (str "8w1 5")).skipSpaces ↔
      (TakesWidth (str "8w1") → (start (str "8w1;")).skipSpaces.width = 32 ∧
        (start (str "8w1 5")).skipSpaces.width = 32) := by
  have hat₁ : At (start (str "8w1;")).skipSpaces (str "8w1" ++ str ";") :=
    startsAt_start (str "8w1;")
  have hat₂ : At (start (str "8w1 5")).skipSpaces (str "8w1" ++ str " 5") :=
    startsAt_start (str "8w1 5")
  exact readAlike_iff ⟨rfl, by decide, rfl⟩ hat₁ ⟨rfl, by decide, rfl⟩ hat₂

/-- Behind a literal of eight bits the same `5` is one of eight bits. -/
theorem not_readAlike_behind_sized :
    ∃ os lx, Calls (start (str "8w1 5;")) os lx ∧
      At lx.skipSpaces (str "5" ++ str ";") ∧
      At (start (str "5;")).skipSpaces (str "5" ++ str ";") ∧
      ¬ReadAlike (str "5") (start (str "5;")).skipSpaces lx.skipSpaces := by
  have hrun : IsRun (str "8w1") (str " 5;") := ⟨rfl, by decide, rfl⟩
  have hfive : IsRun (str "5") (str ";") := ⟨rfl, by decide, rfl⟩
  have hat : At (start (str "8w1 5;")).skipSpaces (str "8w1" ++ str " 5;") :=
    startsAt_start (str "8w1 5;")
  have hread := hrun.readNumber_eq hat
  have hbehind : At (start (str "8w1 5;")).skipSpaces.readNumber.2 (str " 5;") := by
    rw [hread]
    exact (hrun.numberLoop hat).2.evalNumber _
  have hat₂ := view_at.skipSpaces hbehind
  have hat₁ : At (start (str "5;")).skipSpaces (str "5" ++ str ";") := startsAt_start (str "5;")
  have height : ∀ lx : Lexer, (evalNumber (str "8w1") lx).2.width = 8 := fun lx => rfl
  have hleft : ∀ lx : Lexer, (evalNumber (str "5") lx).1 = .ok .tNumber ∧
      (evalNumber (str "5") lx).2.width = lx.width := fun lx => ⟨rfl, rfl⟩
  refine ⟨_, _, .cons (completes_of_isRun hrun hat) (.nil _), hat₂, hat₁, fun halike => ?_⟩
  have hwidth := halike.width (by rw [hfive.readNumber_eq hat₁]; exact (hleft _).1)
  rw [hfive.readNumber_eq hat₁, hfive.readNumber_eq hat₂, (hleft _).2, (hleft _).2,
    numberLoop_width, numberLoop_width, (skips_skipSpaces _).width_eq,
    (skips_skipSpaces _).width_eq, hread, height] at hwidth
  revert hwidth
  decide

/-! ## The width after a run -/

theorem evalNumber_width_of_unsized {run : Bytes}
    (h : ∀ sm, matchNumber run = some sm → sm.sized = none) (lx : Lexer) :
    (evalNumber run lx).2.width = lx.width := by
  cases hmatch : matchNumber run with
  | none => rw [evalNumber, hmatch]
  | some sm =>
    obtain ⟨value, hstate⟩ := setValue_state sm (-1) false lx
    rw [evalNumber_unsized hmatch (h sm hmatch), hstate]

/-- The literal that the call gets to, if it gets to one, has no width. -/
def LiteralUnsized (lx : Lexer) : Prop :=
  ∀ lx', Meets lx lx' → ∀ sm, matchNumber lx'.numberText = some sm → sm.sized = none

/-- A run leaves the width alone that gets to no literal with a width. -/
theorem Calls.width_eq {lx lx' : Lexer} {os : List Outcome} (h : Calls lx os lx')
    (hunsized : Run.Throughout CallStep LiteralUnsized lx os) : lx'.width = lx.width := by
  have hstep : ∀ lx₁ o lx₂, LiteralUnsized lx₁ → lx₁.width = lx.width → CallStep lx₁ o lx₂ →
      lx₂.width = lx.width := by
    intro lx₁ o lx₂ hliteral hwidth step
    obtain ⟨hcall, rfl⟩ := step
    rcases (completes_iff_scan.mp hcall).passes with ⟨lx₃, hmeets, hwidth₃, rfl⟩ | ⟨_, hleft⟩
    · have hread : lx₃.readNumber.2.width = _ :=
        evalNumber_width_of_unsized (hliteral lx₃ hmeets) (numberLoop [lx₃.last] lx₃.advance).2
      rw [hread, numberLoop_width, hwidth₃, hwidth]
    · rw [hleft, hwidth]
  exact Run.invariant_of_throughout callStep_deterministic hstep (calls_iff_run.mp h) hunsized rfl

end Lexer

end P4LS
