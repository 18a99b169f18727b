import P4LS.Lexer.Matching

/-!
# Conversions

`read_number` hands the width and the digits of a literal to `std::stoi`.  It reads the digits
in front of the first underscore, and throws where there are none and where their value is not
an `int`.  `Comes` lists what can come of a literal that the expression matches.
-/

namespace P4LS

open Bytes

namespace Lexer

namespace NumberMatch

/-- The number `stoi` reads of the digits. -/
def leadingNumber (sm : NumberMatch) : Nat := numberValue (numberBase sm) (leadingDigits sm.digits)

/-- A number cut to the width of a literal, in two's complement with `s`.  The mask has the
width modulo 32, as the shift takes its count. -/
def cut (sm : NumberMatch) (n : Nat) : Int :=
  match sm.sized with
  | none => n
  | some (digits, letter) =>
    if letter = ch 's' then (BitVec.ofNat (numberValue 10 digits % 32) n).toInt
    else (n % 2 ^ (numberValue 10 digits % 32) : Nat)

/-- The width a literal leaves, if it has one of its own. -/
def widthOr (sm : NumberMatch) (width : Int32) : Int32 :=
  sm.sized.elim width fun (digits, _) => Int32.ofNat (numberValue 10 digits)

/-- The width is an `int`. -/
def WidthConverts (sm : NumberMatch) : Prop :=
  ∀ digits letter, sm.sized = some (digits, letter) → numberValue 10 digits < 2 ^ 31

/-- A signed literal has two bits or more. -/
def Wide (sm : NumberMatch) : Prop :=
  ∀ digits, sm.sized = some (digits, ch 's') → 2 ≤ numberValue 10 digits

/-- The digits pass the expression of their base, which admits underscores. -/
def DigitsPass (sm : NumberMatch) : Prop :=
  sm.digits.all (isDigitOfBase (numberBase sm)) = true

/-- The digits begin with a digit, and those in front of the first underscore denote an `int`. -/
def DigitsConvert (sm : NumberMatch) : Prop :=
  sm.digits.head? ≠ some (ch '_') ∧ sm.leadingNumber < 2 ^ 31

/-- A literal that `read_number` accepts. -/
structure Accepted (sm : NumberMatch) : Prop where
  width : sm.WidthConverts
  wide : sm.Wide
  pass : sm.DigitsPass
  digits : sm.DigitsConvert

/-- No conversion of the literal throws. -/
def Converts (sm : NumberMatch) : Prop :=
  sm.WidthConverts ∧ (sm.Wide → sm.DigitsPass → sm.DigitsConvert)

end NumberMatch

/-! ## The digits -/

/-- The characters that pass the expression of a base are its digits and underscores. -/
theorem NumberMatch.DigitsPass.digit {sm : NumberMatch} (h : sm.DigitsPass) {c : UInt8}
    (hc : c ∈ sm.digits) : c = ch '_' ∨ digitValue c < numberBase sm := by
  have hdigit := List.all_eq_true.mp h c hc
  by_cases hunderscore : c = ch '_'
  · exact .inl hunderscore
  · exact .inr ((isDigitOfBase_iff hunderscore).mp hdigit)

theorem stoi_of_convert {sm : NumberMatch} (hne : sm.digits ≠ []) (hpass : sm.DigitsPass)
    (h : sm.DigitsConvert) : stoi sm.digits (numberBase sm) = .ok (sm.leadingNumber : Int) := by
  have hlt : sm.leadingNumber < 2 ^ 31 := h.2
  rw [stoi, strtol_leading (numberBase_le sm) fun c hc => hpass.digit hc,
    if_neg fun hnil => h.1 ((leadingDigits_eq_nil_iff hne).mp hnil)]
  show (if -2 ^ 31 ≤ (sm.leadingNumber : Int) ∧ (sm.leadingNumber : Int) < 2 ^ 31 then _
    else _) = _
  rw [if_pos ⟨by omega, by omega⟩]
  rfl

theorem stoi_of_not_convert {sm : NumberMatch} (hne : sm.digits ≠ []) (hpass : sm.DigitsPass)
    (h : ¬sm.DigitsConvert) : ∃ error, stoi sm.digits (numberBase sm) = .error error := by
  rw [stoi, strtol_leading (numberBase_le sm) fun c hc => hpass.digit hc]
  by_cases hnil : leadingDigits sm.digits = []
  · rw [if_pos hnil]
    exact ⟨.invalidArgument, rfl⟩
  · have hbig : ¬sm.leadingNumber < 2 ^ 31 := fun hlt =>
      h ⟨fun hhead => hnil ((leadingDigits_eq_nil_iff hne).mpr hhead), hlt⟩
    rw [if_neg hnil]
    show ∃ error, (if -2 ^ 31 ≤ (sm.leadingNumber : Int) ∧ (sm.leadingNumber : Int) < 2 ^ 31
      then _ else _) = _
    rw [if_neg fun hfits => hbig (by omega)]
    exact ⟨.outOfRange, rfl⟩

/-- The digits of a width that is no `int` do not convert. -/
theorem stoi_wide {digits : Bytes} (hne : digits ≠ [])
    (hdigits : ∀ c ∈ digits, isdigit c = true) (h : ¬numberValue 10 digits < 2 ^ 31) :
    stoi digits 10 = .error .outOfRange := by
  rw [stoi, strtol_digits (by decide) hne fun c hc => digitValue_lt_of_isdigit (hdigits c hc)]
  show (if -2 ^ 31 ≤ (numberValue 10 digits : Int) ∧ (numberValue 10 digits : Int) < 2 ^ 31
    then _ else _) = _
  rw [if_neg fun hfits => h (by omega)]

/-! ## The value -/

/-- What can come of a literal that the expression matches: its width or its digits do not
convert, or it is too narrow or has a digit that its base has not, or it is accepted, and its
value is that of the leading digits, cut to the width. -/
inductive Comes (sm : NumberMatch) (width : Int32) (o : Outcome) : Prop where
  | throws (hconverts : ¬sm.Converts) (h : ∃ error, o.1 = .error error)
  | unknown (hconverts : sm.Converts) (haccepted : ¬sm.Accepted) (h : o.1 = .ok .tUnknown)
  | number (haccepted : sm.Accepted) (h : o.1 = .ok .tNumber)
      (hvalue : o.2.value.toInt = sm.cut sm.leadingNumber) (hwidth : o.2.width = sm.widthOr width)

theorem NumberMatch.Accepted.converts {sm : NumberMatch} (h : sm.Accepted) : sm.Converts :=
  ⟨h.width, fun _ _ => h.digits⟩

/-- The value the code computes of a number `n`. -/
def cutValue (mask : Int32) (isSigned : Bool) (width : Int32) (n : Nat) : Int32 :=
  if isSigned then
    ((mask &&& Int32.ofNat n) &&& (mask >>> 1)) -
      ((mask &&& Int32.ofNat n) &&& (1 <<< (width - 1)))
  else mask &&& Int32.ofNat n

/-- Where the width is read and wide enough, the digits decide. -/
theorem comes_setValue {sm : NumberMatch} (hne : sm.digits ≠ []) (hwidth : sm.WidthConverts)
    (hwide : sm.Wide) {mask : Int32} {isSigned : Bool} {lx : Lexer} {width : Int32}
    (hleft : lx.width = sm.widthOr width)
    (hcut : sm.leadingNumber < 2 ^ 31 →
      (cutValue mask isSigned lx.width sm.leadingNumber).toInt = sm.cut sm.leadingNumber) :
    Comes sm width (setValue sm mask isSigned lx) := by
  by_cases hpass : sm.DigitsPass
  · have hall : sm.digits.all (isDigitOfBase (numberBase sm)) = true := hpass
    by_cases hconvert : sm.DigitsConvert
    · have hset : setValue sm mask isSigned lx =
          (.ok .tNumber,
            { lx with value := cutValue mask isSigned lx.width sm.leadingNumber }) := by
        have hcast : Int32.ofInt (sm.leadingNumber : Int) = Int32.ofNat sm.leadingNumber :=
          Int32.ofInt_eq_ofNat
        simp only [setValue, hall, if_true, stoi_of_convert hne hpass hconvert, hcast, cutValue]
      rw [hset]
      exact .number ⟨hwidth, hwide, hpass, hconvert⟩ rfl (hcut hconvert.2) hleft
    · obtain ⟨error, herror⟩ := stoi_of_not_convert hne hpass hconvert
      refine .throws (fun h => hconvert (h.2 hwide hpass)) ⟨error, ?_⟩
      simp only [setValue, hall, if_true, herror]
  · refine .unknown ⟨hwidth, fun _ h => absurd h hpass⟩ (fun h => hpass h.pass) ?_
    rw [setValue_unknown hpass]

theorem comes_unsized {run : Bytes} {sm : NumberMatch} (hmatch : matchNumber run = some sm)
    (hsized : sm.sized = none) (lx : Lexer) : Comes sm lx.width (evalNumber run lx) := by
  have hwidth : sm.WidthConverts := fun digits letter hs => by
    rw [hsized] at hs
    cases hs
  have hwide : sm.Wide := fun digits hs => by
    rw [hsized] at hs
    cases hs
  have hleft : lx.width = sm.widthOr lx.width := by
    rw [NumberMatch.widthOr, hsized]
    rfl
  rw [evalNumber_unsized hmatch hsized]
  refine comes_setValue (matchNumber_eq_some hmatch).2.2.2.1 hwidth hwide hleft fun hlt => ?_
  rw [NumberMatch.cut, hsized, cutValue, if_neg Bool.false_ne_true, Int32.neg_one_and]
  exact Int32.toInt_ofNat_of_lt hlt

/-- With a width the value is cut to it. -/
theorem cutValue_of_sized {sm : NumberMatch} {digits : Bytes} {letter : UInt8}
    (hsized : sm.sized = some (digits, letter)) (hwidth : numberValue 10 digits < 2 ^ 31)
    (hpos : letter = ch 's' → 0 < numberValue 10 digits) {n : Nat} (hn : n < 2 ^ 31) :
    (cutValue (1 <<< Int32.ofNat (numberValue 10 digits) - 1) (letter == ch 's')
      (Int32.ofNat (numberValue 10 digits)) n).toInt = sm.cut n := by
  rw [NumberMatch.cut, hsized, cutValue]
  by_cases hs : letter = ch 's'
  · simp only [hs, beq_self_eq_true, if_true]
    exact CInt.mask_signed_mod (hpos hs) hwidth rfl n
  · simp only [beq_iff_eq, hs, if_false]
    exact CInt.mask_unsigned_mod hwidth hn

theorem comes_sized {run : Bytes} {sm : NumberMatch} (hmatch : matchNumber run = some sm)
    {digits : Bytes} {letter : UInt8} (hsized : sm.sized = some (digits, letter)) (lx : Lexer) :
    Comes sm lx.width (evalNumber run lx) := by
  obtain ⟨_, hall, _, hne, _⟩ := matchNumber_eq_some hmatch
  obtain ⟨hne', hdigits, _⟩ := hall digits letter hsized
  by_cases hlt : numberValue 10 digits < 2 ^ 31
  · have hwidth : sm.WidthConverts := fun digits' letter' hs => by
      rw [hsized] at hs
      cases hs
      exact hlt
    have hwide : sm.Wide ↔ ¬(letter = ch 's' ∧ Int32.ofNat (numberValue 10 digits) < 2) := by
      rw [ofNat_lt_two hlt]
      constructor
      · intro h hnarrow
        have htwo := h digits (by rw [hsized, hnarrow.1])
        omega
      · intro h digits' hs
        rw [hsized] at hs
        cases hs
        exact Nat.not_lt.mp fun hnarrow => h ⟨rfl, hnarrow⟩
    rw [evalNumber_sized hmatch hsized (stoi_width hne' hdigits hlt)]
    by_cases hnarrow : letter = ch 's' ∧ Int32.ofNat (numberValue 10 digits) < 2
    · have hnot : ¬sm.Wide := fun h => hwide.mp h hnarrow
      rw [if_pos hnarrow]
      exact .unknown ⟨hwidth, fun h => absurd h hnot⟩ (fun h => hnot h.wide) rfl
    · have hpos : letter = ch 's' → 0 < numberValue 10 digits := by
        intro hs
        have htwo := hwide.mpr hnarrow digits (by rw [hsized, hs])
        omega
      have hleft : Int32.ofNat (numberValue 10 digits) = sm.widthOr lx.width := by
        rw [NumberMatch.widthOr, hsized]
        rfl
      rw [if_neg hnarrow]
      exact comes_setValue hne hwidth (hwide.mpr hnarrow) hleft
        fun hvalue => cutValue_of_sized hsized hlt hpos hvalue
  · refine .throws (fun h => hlt (h.1 digits letter hsized)) ⟨.outOfRange, ?_⟩
    simp only [evalNumber, hmatch, hsized, stoi_wide hne' hdigits hlt]

theorem evalNumber_comes {run : Bytes} {sm : NumberMatch} (hmatch : matchNumber run = some sm)
    (lx : Lexer) : Comes sm lx.width (evalNumber run lx) := by
  cases hsized : sm.sized with
  | none => exact comes_unsized hmatch hsized lx
  | some sized => exact comes_sized hmatch hsized lx

/-- A literal is accepted if and only if the expression matches it and its parts are. -/
theorem evalNumber_number_iff {run : Bytes} {lx : Lexer} :
    (evalNumber run lx).1 = .ok .tNumber ↔ ∃ sm, matchNumber run = some sm ∧ sm.Accepted := by
  cases hmatch : matchNumber run with
  | none =>
    refine iff_of_false (fun h => ?_) fun h => ?_
    · rw [evalNumber, hmatch] at h
      exact Token.noConfusion (Except.ok.inj h)
    · obtain ⟨sm, hsm, _⟩ := h
      cases hsm
  | some sm =>
    simp only [Option.some.injEq, exists_eq_left']
    cases evalNumber_comes hmatch lx with
    | throws hconverts h =>
      obtain ⟨error, h⟩ := h
      rw [h]
      exact iff_of_false (fun h => by cases h) fun haccepted => hconverts haccepted.converts
    | unknown _ haccepted h =>
      rw [h]
      exact iff_of_false (fun h => Token.noConfusion (Except.ok.inj h)) haccepted
    | number haccepted h _ _ => exact iff_of_true h haccepted

/-- A literal throws if and only if the expression matches it and a conversion of it throws. -/
theorem evalNumber_returns_iff {run : Bytes} {lx : Lexer} :
    (evalNumber run lx).1.Returns ↔ ∀ sm, matchNumber run = some sm → sm.Converts := by
  cases hmatch : matchNumber run with
  | none =>
    refine iff_of_true ?_ fun sm hsm => by cases hsm
    rw [evalNumber, hmatch]
    exact Except.returns_ok _
  | some sm =>
    simp only [Option.some.injEq, forall_eq']
    cases evalNumber_comes hmatch lx with
    | throws hconverts h =>
      obtain ⟨error, h⟩ := h
      rw [h]
      exact iff_of_false (Except.not_returns_error _) hconverts
    | unknown hconverts _ h =>
      rw [h]
      exact iff_of_true (Except.returns_ok _) hconverts
    | number haccepted h _ _ =>
      rw [h]
      exact iff_of_true (Except.returns_ok _) haccepted.converts

/-- An accepted literal has the value of its leading digits, and its own width or the one from
before. -/
theorem evalNumber_accepted {run : Bytes} {sm : NumberMatch} (hmatch : matchNumber run = some sm)
    (haccepted : sm.Accepted) (lx : Lexer) :
    (evalNumber run lx).2.value.toInt = sm.cut sm.leadingNumber ∧
      (evalNumber run lx).2.width = sm.widthOr lx.width := by
  cases evalNumber_comes hmatch lx with
  | throws hconverts _ => exact absurd haccepted.converts hconverts
  | unknown _ hnot _ => exact absurd haccepted hnot
  | number _ _ hvalue hwidth => exact ⟨hvalue, hwidth⟩

end Lexer

end P4LS
