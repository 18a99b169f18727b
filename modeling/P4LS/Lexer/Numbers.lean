import P4LS.Lexer.Conversions

/-!
# Numeric literals

With a width of at most 30 bits and a value that is an `int`, a literal is accepted, and the
arithmetic on `int` gives the low bits of the value.
-/

namespace P4LS

open Bytes

namespace Lexer

/-! ## Literals -/

theorem IsLiteral.underscore {run : Bytes} {sm : NumberMatch} (h : IsLiteral run sm) :
    ch '_' ∉ sm.digits := by
  intro hmem
  obtain ⟨_, _, _, _, _, _, hne, _⟩ := digit_plain (digit_lt_sixteen (h.digits _ hmem))
  exact hne rfl

theorem IsLiteral.leadingNumber_eq {run : Bytes} {sm : NumberMatch} (h : IsLiteral run sm) :
    sm.leadingNumber = sm.digitsNumber := by
  rw [NumberMatch.leadingNumber, leadingDigits_eq_self h.underscore]
  rfl

/-- A literal whose width and value fit is accepted. -/
theorem IsLiteral.accepted {run : Bytes} {sm : NumberMatch} (h : IsLiteral run sm)
    (hwidth : sm.WidthConverts) (hvalue : sm.digitsNumber < 2 ^ 31) : sm.Accepted where
  width := hwidth
  wide digits hs := (h.sized digits (ch 's') hs).2.2.2 rfl
  pass := all_isDigitOfBase h.digits
  digits := by
    refine ⟨fun hhead => h.underscore (List.mem_of_head? hhead), ?_⟩
    rw [h.leadingNumber_eq]
    exact hvalue

/-- Below 32 bits the width itself is the count of the shift. -/
theorem NumberMatch.cut_digitsNumber {sm : NumberMatch}
    (hwidth : ∀ digits letter, sm.sized = some (digits, letter) → numberValue 10 digits ≤ 30) :
    sm.cut sm.digitsNumber = sm.number := by
  rw [NumberMatch.cut, NumberMatch.number]
  cases hsized : sm.sized with
  | none => rfl
  | some sized =>
    obtain ⟨digits, letter⟩ := sized
    have hle := hwidth digits letter hsized
    have hmod : numberValue 10 digits % 32 = numberValue 10 digits := Nat.mod_eq_of_lt (by omega)
    show (if letter = ch 's' then (BitVec.ofNat (numberValue 10 digits % 32) _).toInt
      else (_ % 2 ^ (numberValue 10 digits % 32) : Nat)) = _
    rw [hmod]

/-- What a literal evaluates to. -/
structure Evaluated (sm : NumberMatch) (o : Outcome) : Prop where
  kind : o.1 = .ok .tNumber
  value : o.2.value.toInt = sm.number
  width : ∀ digits letter, sm.sized = some (digits, letter) →
    o.2.width.toInt = numberValue 10 digits

theorem evaluated_of_isLiteral {run : Bytes} {sm : NumberMatch} (h : IsLiteral run sm)
    (hwidth : ∀ digits letter, sm.sized = some (digits, letter) → numberValue 10 digits ≤ 30)
    (hvalue : sm.digitsNumber < 2 ^ 31) (lx : Lexer) : Evaluated sm (evalNumber run lx) := by
  have hmatch := matchNumber_of_isLiteral h
  have hconverts : sm.WidthConverts := fun digits letter hs => by
    have hle := hwidth digits letter hs
    omega
  have haccepted := h.accepted hconverts hvalue
  obtain ⟨hcut, hleft⟩ := evalNumber_accepted hmatch haccepted lx
  refine ⟨evalNumber_number_iff.mpr ⟨sm, hmatch, haccepted⟩, ?_, fun digits letter hs => ?_⟩
  · rw [hcut, h.leadingNumber_eq, NumberMatch.cut_digitsNumber hwidth]
  · rw [hleft, NumberMatch.widthOr, hs]
    exact Int32.toInt_ofNat_of_lt (hconverts digits letter hs)

/-! ## Texts that are no literals -/

/-- The digits before an `s` or a `w` denote a bounded width. -/
def WidthAtMost (bound : Nat) (run : Bytes) : Prop :=
  ∀ digits letter rest, run = digits ++ letter :: rest → (∀ c ∈ digits, isdigit c = true) →
    letter = ch 's' ∨ letter = ch 'w' → numberValue 10 digits ≤ bound

/-- The parts of a text whose digits pass the expression of their base are a literal, if the width
is large enough. -/
theorem isLiteral_of_match {run : Bytes} {sm : NumberMatch} (hmatch : matchNumber run = some sm)
    (hunderscore : ch '_' ∉ run)
    (hdigits : sm.digits.all (isDigitOfBase (numberBase sm)) = true)
    (hsigned : ∀ digits, sm.sized = some (digits, ch 's') → 2 ≤ numberValue 10 digits) :
    IsLiteral run sm := by
  obtain ⟨htext, hsized, hbase, hne, _⟩ := matchNumber_eq_some hmatch
  refine ⟨htext, fun digits letter hs => ?_, hbase, hne, fun c hc => ?_⟩
  · obtain ⟨hne', hall, hletter⟩ := hsized digits letter hs
    refine ⟨hne', hall, hletter, fun heq => ?_⟩
    rw [heq] at hs
    exact hsigned digits hs
  · have hmem : c ∈ run := by
      rw [← htext, NumberMatch.text]
      exact List.mem_append_right _ hc
    have hplain : c ≠ ch '_' := fun heq => hunderscore (heq ▸ hmem)
    exact (isDigitOfBase_iff hplain).mp (List.all_eq_true.mp hdigits c hc)

theorem widthAtMost_of_takeWhile {bound : Nat} {run : Bytes}
    (h : numberValue 10 (run.takeWhile isdigit) ≤ bound) : WidthAtMost bound run := by
  intro digits letter rest heq hdigits hletter
  have hnot : ¬isdigit letter = true := by
    rcases hletter with rfl | rfl <;> decide
  rwa [heq, List.takeWhile_append_of_pos hdigits, List.takeWhile_cons_of_neg hnot,
    List.append_nil] at h

theorem WidthAtMost.sized {bound : Nat} {run : Bytes} (h : WidthAtMost bound run)
    {sm : NumberMatch} (htext : sm.text = run) {digits : Bytes} {letter : UInt8}
    (hsized : sm.sized = some (digits, letter)) (hdigits : ∀ c ∈ digits, isdigit c = true)
    (hletter : letter = ch 's' ∨ letter = ch 'w') : numberValue 10 digits ≤ bound := by
  refine h digits letter ((sm.base.elim [] fun letter => [ch '0', letter]) ++ sm.digits) ?_
    hdigits hletter
  rw [← htext, NumberMatch.text, hsized, Option.elim_some]
  simp

/-- A text without underscores that is no literal is not known. -/
theorem evalNumber_unknown {run : Bytes} (hunderscore : ch '_' ∉ run)
    (hwidth : WidthAtMost 30 run) (h : ¬∃ sm, IsLiteral run sm) (lx : Lexer) :
    (evalNumber run lx).1 = .ok .tUnknown := by
  cases hmatch : matchNumber run with
  | none => rw [evalNumber, hmatch]
  | some sm =>
    obtain ⟨htext, hall, _⟩ := matchNumber_eq_some hmatch
    have hconverts : sm.WidthConverts := fun digits letter hs => by
      obtain ⟨_, hdigits, hletter⟩ := hall digits letter hs
      have hle := hwidth.sized htext hs hdigits hletter
      omega
    have hnot : sm.Wide → ¬sm.DigitsPass := fun hwide hpass =>
      h ⟨sm, isLiteral_of_match hmatch hunderscore hpass hwide⟩
    cases evalNumber_comes hmatch lx with
    | throws hthrows _ => exact absurd ⟨hconverts, fun hw hp => absurd hp (hnot hw)⟩ hthrows
    | unknown _ _ hkind => exact hkind
    | number haccepted _ _ _ => exact absurd haccepted.pass (hnot haccepted.wide)

/-! ## One literal -/

/-- A numeric literal is recognised if and only if it is well formed, and then the value is the
number it stands for and the width the one that is written. -/
theorem number_literal {lx : Lexer} {run rest : Bytes} (hcollected : Collected run rest)
    (h : At lx (run ++ rest)) (hwidth : WidthAtMost 30 run)
    (hvalue : ∀ sm, IsLiteral run sm → sm.digitsNumber < 2 ^ 31) :
    (lx.readNumber.1 = .ok .tNumber ↔ ∃ sm, IsLiteral run sm) ∧
      (lx.readNumber.1 = .ok .tUnknown ↔ ¬∃ sm, IsLiteral run sm) ∧
      (∀ sm, IsLiteral run sm → lx.readNumber.2.value.toInt = sm.number ∧
        ∀ digits letter, sm.sized = some (digits, letter) →
          lx.readNumber.2.width.toInt = numberValue 10 digits) ∧
      At lx.readNumber.2 rest := by
  obtain ⟨hrun, hat⟩ := hcollected.isRun.numberLoop h
  have hread : lx.readNumber = evalNumber run (numberLoop [lx.last] lx.advance).2 := by
    rw [readNumber_eq, hrun]
  have hliteral : ∀ sm, IsLiteral run sm → Evaluated sm lx.readNumber := by
    intro sm hsm
    rw [hread]
    refine evaluated_of_isLiteral hsm (fun digits letter hs => ?_) (hvalue sm hsm) _
    obtain ⟨_, hdigits, hletter, _⟩ := hsm.sized digits letter hs
    exact hwidth.sized hsm.text hs hdigits hletter
  have hunknown : (¬∃ sm, IsLiteral run sm) → lx.readNumber.1 = .ok .tUnknown := by
    intro hnone
    rw [hread]
    exact evalNumber_unknown hcollected.underscore hwidth hnone _
  refine ⟨⟨fun hnumber => ?_, fun hsm => ?_⟩, ⟨fun hkind hsm => ?_, hunknown⟩, fun sm hsm => ?_, ?_⟩
  · by_contra hnone
    rw [hunknown hnone] at hnumber
    exact Token.noConfusion (Except.ok.inj hnumber)
  · obtain ⟨sm, hsm⟩ := hsm
    exact (hliteral sm hsm).kind
  · obtain ⟨sm, hsm⟩ := hsm
    rw [(hliteral sm hsm).kind] at hkind
    exact Token.noConfusion (Except.ok.inj hkind)
  · exact ⟨(hliteral sm hsm).value, (hliteral sm hsm).width⟩
  · rw [hread]
    exact hat.evalNumber run

theorem number_literal_signed :
    (start (str "4s0b1110;")).skipSpaces.readNumber.1 = .ok .tNumber ∧
      (start (str "4s0b1110;")).skipSpaces.readNumber.2.value.toInt = -2 ∧
      (start (str "4s0b1110;")).skipSpaces.readNumber.2.width.toInt = 4 := by
  have hsm : IsLiteral (str "4s0b1110") ⟨some (str "4", ch 's'), some (ch 'b'), str "1110"⟩ := by
    refine ⟨rfl, fun digits letter h => ?_, fun letter h => ?_, by decide, by decide⟩
    · cases h
      exact ⟨by decide, by decide, .inl rfl, fun _ => by decide⟩
    · cases h
      rfl
  have hcollected : Collected (str "4s0b1110") (str ";") := ⟨rfl, by decide, rfl⟩
  obtain ⟨hnumber, _, hevaluated, _⟩ :=
    number_literal hcollected (startsAt_start (str "4s0b1110;"))
      (widthAtMost_of_takeWhile (by decide))
      (fun sm h => by
        have heq := (matchNumber_of_isLiteral h).symm.trans (matchNumber_of_isLiteral hsm)
        rw [Option.some.inj heq]
        decide)
  obtain ⟨hvalue, hwidth⟩ := hevaluated _ hsm
  exact ⟨hnumber.mpr ⟨_, hsm⟩, hvalue.trans (by decide), hwidth _ _ rfl⟩

end Lexer

end P4LS
