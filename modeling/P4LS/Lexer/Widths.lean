import P4LS.Lexer.Numbers

/-!
# Wide literals

`read_number` again, with the operations on `int` as the language defines them:
`evalNumberChecked` has no outcome where one of them has no result.  Where it has
one, it is the outcome of `evalNumber`.  With a width of 31 bits or more the mask
has no result, so no such literal is evaluated without an undefined operation.
-/

namespace P4LS

open Bytes CInt

namespace Lexer

/-- `setValue` with checked operations. -/
def setValueChecked (sm : NumberMatch) (mask : Int32) (isSigned : Bool) (lx : Lexer) :
    Except Undefined Outcome :=
  let base := numberBase sm
  if sm.digits.all (isDigitOfBase base) then
    match stoi sm.digits base with
    | .error error => .ok (.error error, lx)
    | .ok n =>
      let value := mask &&& Int32.ofInt n
      if isSigned then do
        let sign ← shl 1 (← sub lx.width 1)
        let value ← sub (value &&& (mask >>> 1)) (value &&& sign)
        return (.ok .tNumber, { lx with value := value })
      else .ok (.ok .tNumber, { lx with value := value })
  else
    .ok (.ok .tUnknown, lx)

/-- `evalNumber` with checked operations. -/
def evalNumberChecked (numstr : Bytes) (lx : Lexer) : Except Undefined Outcome :=
  match matchNumber numstr with
  | none => .ok (.ok .tUnknown, lx)
  | some sm =>
    match sm.sized with
    | none => setValueChecked sm (-1) false lx
    | some (digits, letter) =>
      match stoi digits 10 with
      | .error error => .ok (.error error, lx)
      | .ok n => do
        let lx := { lx with width := Int32.ofInt n }
        let mask ← lowMask lx.width
        let isSigned := letter == ch 's'
        if isSigned && lx.width < 2 then return (.ok .tUnknown, lx)
        else setValueChecked sm mask isSigned lx

/-- `readNumber` with checked operations. -/
def readNumberChecked (lx : Lexer) : Except Undefined Outcome :=
  evalNumberChecked (numberLoop [lx.last] lx.advance).1 (numberLoop [lx.last] lx.advance).2

/-! ## Defined operations are the wrapping ones -/

theorem setValueChecked_eq_ok {sm : NumberMatch} {mask : Int32} {isSigned : Bool} {lx : Lexer}
    {o : Outcome} (h : setValueChecked sm mask isSigned lx = .ok o) :
    setValue sm mask isSigned lx = o := by
  unfold setValueChecked at h
  unfold setValue
  simp only at h ⊢
  split at h
  · rename_i hdigits
    rw [if_pos hdigits]
    cases hstoi : stoi sm.digits (numberBase sm) with
    | error error =>
      simp only [hstoi] at h
      exact Except.ok.inj h
    | ok n =>
      simp only [hstoi] at h
      cases isSigned with
      | false => exact Except.ok.inj h
      | true =>
        obtain ⟨last, hlast, h⟩ := Except.bind_eq_ok.mp h
        obtain ⟨sign, hsign, h⟩ := Except.bind_eq_ok.mp h
        obtain ⟨value, hvalue, h⟩ := Except.bind_eq_ok.mp h
        rw [sub_eq_ok hlast] at hsign
        rw [shl_eq_ok hsign] at hvalue
        rw [← Except.ok.inj h, sub_eq_ok hvalue]
        rfl
  · rename_i hdigits
    rw [if_neg hdigits]
    exact Except.ok.inj h

/-- Where every operation has a result, the outcome is that of the lexer. -/
theorem evalNumberChecked_eq_ok {numstr : Bytes} {lx : Lexer} {o : Outcome}
    (h : evalNumberChecked numstr lx = .ok o) : evalNumber numstr lx = o := by
  unfold evalNumberChecked at h
  unfold evalNumber
  cases hmatch : matchNumber numstr with
  | none =>
    simp only [hmatch] at h
    exact Except.ok.inj h
  | some sm =>
    simp only [hmatch] at h ⊢
    cases hsized : sm.sized with
    | none =>
      simp only [hsized] at h
      exact setValueChecked_eq_ok h
    | some sized =>
      obtain ⟨digits, letter⟩ := sized
      cases hstoi : stoi digits 10 with
      | error error =>
        simp only [hsized, hstoi] at h ⊢
        exact Except.ok.inj h
      | ok n =>
        simp only [hsized, hstoi] at h ⊢
        obtain ⟨mask, hmask, h⟩ := Except.bind_eq_ok.mp h
        rw [← lowMask_eq_ok hmask]
        split at h
        · rename_i hnarrow
          rw [if_pos hnarrow]
          exact Except.ok.inj h
        · rename_i hwide
          rw [if_neg hwide]
          exact setValueChecked_eq_ok h

/-! ## Widths -/

/-- A literal is read with its width and its value, and by defined operations only. -/
structure HandlesWidth (lx : Lexer) (width value : Nat) : Prop where
  kind : lx.readNumber.1 = .ok .tNumber
  width : lx.readNumber.2.width.toInt = width
  value : lx.readNumber.2.value.toInt = value
  defined : ∃ o, lx.readNumberChecked = .ok o

theorem evalNumberChecked_sized {run : Bytes} {sm : NumberMatch}
    (hmatch : matchNumber run = some sm) {digits : Bytes} {letter : UInt8}
    (hsized : sm.sized = some (digits, letter)) {width : Nat}
    (hwidth : stoi digits 10 = .ok (width : Int)) {u : Undefined}
    (hmask : lowMask (Int32.ofNat width) = .error u) (lx : Lexer) :
    evalNumberChecked run lx = .error u := by
  rw [evalNumberChecked, hmatch]
  simp only [hsized, hwidth, Int32.ofInt_eq_ofNat, hmask]
  rfl

theorem readNumberChecked_eq (lx : Lexer) :
    lx.readNumberChecked = evalNumberChecked (numberLoop [lx.last] lx.advance).1
      (numberLoop [lx.last] lx.advance).2 := rfl

/-- A mask for 31 bits or more is computed with an operation that has no result. -/
theorem evalNumberChecked_wide {run : Bytes} {sm : NumberMatch}
    (hmatch : matchNumber run = some sm) {digits : Bytes} {letter : UInt8}
    (hsized : sm.sized = some (digits, letter)) (hwide : 31 ≤ numberValue 10 digits)
    (hwidth : numberValue 10 digits < 2 ^ 31) (lx : Lexer) :
    ∃ u, evalNumberChecked run lx = .error u := by
  obtain ⟨hne, hdigits, _⟩ := (matchNumber_eq_some hmatch).2.1 digits letter hsized
  have hle : 31 ≤ Int32.ofNat (numberValue 10 digits) := by
    have h31 : (31 : Int32).toInt = 31 := rfl
    rw [Int32.le_iff_toInt_le, Int32.toInt_ofNat_of_lt hwidth, h31]
    omega
  obtain ⟨u, hu⟩ := lowMask_undefined hle
  exact ⟨u, evalNumberChecked_sized hmatch hsized (stoi_width hne hdigits hwidth) hu lx⟩

/-- No literal with a width of 31 bits or more is read by defined operations only. -/
theorem not_handlesWidth {lx : Lexer} {run rest : Bytes} {sm : NumberMatch} {digits : Bytes}
    (hcollected : Collected run rest) (h : At lx (run ++ rest)) (hsm : IsLiteral run sm)
    (hsized : sm.sized = some (digits, ch 'w')) (hwide : 31 ≤ numberValue 10 digits)
    (hwidth : numberValue 10 digits < 2 ^ 31) :
    ¬HandlesWidth lx (numberValue 10 digits) sm.digitsNumber := by
  intro hhandles
  obtain ⟨o, ho⟩ := hhandles.defined
  obtain ⟨u, hu⟩ := evalNumberChecked_wide (matchNumber_of_isLiteral hsm) hsized hwide hwidth
    (numberLoop [lx.last] lx.advance).2
  rw [readNumberChecked_eq, (hcollected.isRun.numberLoop h).1, hu] at ho
  cases ho

theorem not_handlesWidth_header :
    ¬HandlesWidth (start (str "48w0x800;")).skipSpaces (numberValue 10 (str "48")) 2048 := by
  have hcollected : Collected (str "48w0x800") (str ";") := ⟨rfl, by decide, rfl⟩
  have hsm : IsLiteral (str "48w0x800") ⟨some (str "48", ch 'w'), some (ch 'x'), str "800"⟩ := by
    refine ⟨rfl, fun digits letter h => ?_, fun letter h => ?_, by decide, by decide⟩
    · cases h
      exact ⟨by decide, by decide, .inr rfl, fun hs => absurd hs (by decide)⟩
    · cases h
      rfl
  exact not_handlesWidth hcollected (startsAt_start (str "48w0x800;")) hsm rfl (by decide)
    (by decide)

/-- Where a shift takes its count modulo 32, the mask of 32 bits is empty and the value lost. -/
theorem not_handlesWidth_32 :
    At (start (str "32w5;")).skipSpaces (str "32w5" ++ str ";") ∧
      (start (str "32w5;")).skipSpaces.readNumber.2.value = 0 ∧
      (start (str "32w5;")).skipSpaces.readNumberChecked = .error .shift ∧
      ¬HandlesWidth (start (str "32w5;")).skipSpaces 32 5 := by
  have hat : At (start (str "32w5;")).skipSpaces (str "32w5" ++ str ";") :=
    startsAt_start (str "32w5;")
  have hcollected : Collected (str "32w5") (str ";") := ⟨rfl, by decide, rfl⟩
  have hrun := (hcollected.isRun.numberLoop hat).1
  have hmask : (1 <<< Int32.ofInt 32 - 1) &&& Int32.ofInt 5 = 0 := by decide
  have hvalue : ∀ lx : Lexer, (evalNumber (str "32w5") lx).2.value = 0 := fun lx =>
    show (1 <<< Int32.ofInt 32 - 1) &&& Int32.ofInt 5 = 0 from hmask
  have hchecked : ∀ lx : Lexer, evalNumberChecked (str "32w5") lx = .error .shift := fun lx => rfl
  have hzero : (start (str "32w5;")).skipSpaces.readNumber.2.value = 0 := by
    rw [readNumber_eq, hrun, hvalue]
  refine ⟨hat, hzero, ?_, fun hhandles => ?_⟩
  · rw [readNumberChecked_eq, hrun, hchecked]
  · have hfive := hhandles.value
    rw [hzero] at hfive
    revert hfive
    decide

/-! ## Narrow literals -/

/-- The literal has no width of its own, or one for which the mask has a result. -/
def NumberMatch.Narrow (sm : NumberMatch) : Prop :=
  ∀ digits letter, sm.sized = some (digits, letter) → numberValue 10 digits ≤ 30

/-- Without a sign nothing but the mask is computed. -/
theorem exists_setValueChecked_unsigned (sm : NumberMatch) (mask : Int32) (lx : Lexer) :
    ∃ o, setValueChecked sm mask false lx = .ok o := by
  unfold setValueChecked
  simp only [Bool.false_eq_true, if_false]
  split
  · split <;> exact ⟨_, rfl⟩
  · exact ⟨_, rfl⟩

/-- Digits are cut to at most 30 bits by defined operations. -/
theorem exists_setValueChecked (sm : NumberMatch) {n : Nat} (hn : n < 30) (isSigned : Bool)
    {lx : Lexer} (hwidth : lx.width = Int32.ofNat (n + 1)) :
    ∃ o, setValueChecked sm (Int32.ofNat (2 ^ (n + 1) - 1)) isSigned lx = .ok o := by
  cases isSigned with
  | false => exact exists_setValueChecked_unsigned sm _ lx
  | true =>
    have hpred : sub (Int32.ofNat (n + 1)) 1 = .ok (Int32.ofNat n) := by
      rw [← ofNat_succ_sub_one n hn]
      exact sub_ofNat (by omega) (by decide)
    have hdifference : ∀ v : Int32, ∃ value,
        sub (v &&& Int32.ofNat (2 ^ n - 1)) (v &&& Int32.ofNat (2 ^ n)) = .ok value := by
      intro v
      obtain ⟨a, rfl⟩ : ∃ a, v = Int32.ofNat a :=
        ⟨v.toBitVec.toNat, Int32.toBitVec_inj.mp (by simp)⟩
      have hlow : 2 ^ n < 2 ^ 31 := Nat.pow_lt_pow_right (by decide) (by omega)
      rw [ofNat_and, ofNat_and]
      exact ⟨_, sub_ofNat (Nat.lt_of_le_of_lt Nat.and_le_right (by omega))
        (Nat.lt_of_le_of_lt Nat.and_le_right hlow)⟩
    unfold setValueChecked
    simp only [if_true]
    split
    · split
      · exact ⟨_, rfl⟩
      · rename_i value _
        obtain ⟨difference, hdifference⟩ :=
          hdifference (Int32.ofNat (2 ^ (n + 1) - 1) &&& Int32.ofInt value)
        rw [hwidth, hpred, lowMask_half n (by omega)]
        simp only [bind, Except.bind, shl_one_ofNat n (by omega), hdifference]
        exact ⟨_, rfl⟩
    · exact ⟨_, rfl⟩

/-- An accepted literal is evaluated by defined operations if and only if it is narrow. -/
theorem exists_evalNumberChecked_iff {run : Bytes} {sm : NumberMatch}
    (hmatch : matchNumber run = some sm) (haccepted : sm.Accepted) (lx : Lexer) :
    (∃ o, evalNumberChecked run lx = .ok o) ↔ sm.Narrow := by
  cases hsized : sm.sized with
  | none =>
    refine iff_of_true ?_ fun digits letter h => by
      rw [hsized] at h
      cases h
    rw [evalNumberChecked, hmatch]
    simp only [hsized]
    exact exists_setValueChecked_unsigned sm _ lx
  | some sized =>
    obtain ⟨digits, letter⟩ := sized
    constructor
    · rintro ⟨o, ho⟩ digits' letter' h
      by_contra hwide
      obtain ⟨u, hu⟩ :=
        evalNumberChecked_wide hmatch h (by omega) (haccepted.width digits' letter' h) lx
      rw [hu] at ho
      cases ho
    · intro hnarrow
      have hle := hnarrow digits letter hsized
      obtain ⟨hne, hdigits, _⟩ := (matchNumber_eq_some hmatch).2.1 digits letter hsized
      rw [evalNumberChecked, hmatch]
      simp only [hsized, stoi_width hne hdigits (by omega), Int32.ofInt_eq_ofNat, bind, Except.bind,
        lowMask_ofNat (numberValue 10 digits) (by omega)]
      split
      · exact ⟨_, rfl⟩
      · by_cases hs : letter = ch 's'
        · have htwo := haccepted.wide digits (hs ▸ hsized)
          obtain ⟨n, hn⟩ : ∃ n, numberValue 10 digits = n + 1 :=
            ⟨numberValue 10 digits - 1, by omega⟩
          rw [hn]
          exact exists_setValueChecked sm (by omega) _ rfl
        · rw [beq_eq_false_iff_ne.mpr hs]
          exact exists_setValueChecked_unsigned sm _ _

end Lexer

end P4LS
