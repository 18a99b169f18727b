import P4LS.Library.CInt
import P4LS.Lexer.Tokens

/-!
# Matching a literal

The regular expression of `read_number` can match a literal in one way only, so its groups are the
parts of the literal as it is written.
-/

namespace P4LS

open Bytes

namespace Lexer

/-! ## Literals -/

/-- The value of a string of digits. -/
def numberValue (base : Nat) (digits : Bytes) : Nat :=
  digits.foldl (fun n d => base * n + digitValue d) 0

namespace NumberMatch

/-- A literal as it is written: width digits and `s` or `w`, `0` and the letter of a base,
digits. -/
def text (sm : NumberMatch) : Bytes :=
  (sm.sized.elim [] fun (digits, letter) => digits ++ [letter]) ++
    (sm.base.elim [] fun letter => [ch '0', letter]) ++ sm.digits

/-- The value of the digits. -/
def digitsNumber (sm : NumberMatch) : Nat := numberValue (numberBase sm) sm.digits

/-- The number a literal stands for: the digits without a width, their low bits with `w`, and
these bits in two's complement with `s`. -/
def number (sm : NumberMatch) : Int :=
  match sm.sized with
  | none => sm.digitsNumber
  | some (digits, letter) =>
    if letter = ch 's' then (BitVec.ofNat (numberValue 10 digits) sm.digitsNumber).toInt
    else (sm.digitsNumber % 2 ^ numberValue 10 digits : Nat)

end NumberMatch

/-- The parts of a text that is a literal: the width is a decimal number with `s` or `w`, and
two bits or more where it is signed, and the digits, one at least, are digits of the base. -/
structure IsLiteral (run : Bytes) (sm : NumberMatch) : Prop where
  text : sm.text = run
  sized : ∀ digits letter, sm.sized = some (digits, letter) →
    digits ≠ [] ∧ (∀ c ∈ digits, isdigit c = true) ∧ (letter = ch 's' ∨ letter = ch 'w') ∧
      (letter = ch 's' → 2 ≤ numberValue 10 digits)
  base : ∀ letter, sm.base = some letter → isBaseLetter letter = true
  nonempty : sm.digits ≠ []
  digits : ∀ c ∈ sm.digits, digitValue c < numberBase sm

/-! ## Digits -/

theorem numberBase_mem (sm : NumberMatch) : numberBase sm ∈ [2, 8, 10, 16] := by
  unfold numberBase
  split
  · decide
  split
  · decide
  split
  · decide
  split <;> decide

theorem digit_lt_sixteen {sm : NumberMatch} {c : UInt8} (h : digitValue c < numberBase sm) :
    digitValue c < 16 := by
  have hle : ∀ b ∈ [2, 8, 10, 16], b ≤ 16 := by decide
  exact Nat.lt_of_lt_of_le h (hle _ (numberBase_mem sm))

/-- Apart from the underscore the characters the expression of a base admits are its digits. -/
theorem isDigitOfBase_iff {sm : NumberMatch} {c : UInt8} (hc : c ≠ ch '_') :
    isDigitOfBase (numberBase sm) c = true ↔ digitValue c < numberBase sm := by
  have hall : ∀ b ∈ [2, 8, 10, 16], (List.range 256).all (fun n =>
      UInt8.ofNat n == ch '_' ||
        isDigitOfBase b (UInt8.ofNat n) == decide (digitValue (UInt8.ofNat n) < b)) = true := by
    decide +kernel
  have hbyte := List.all_eq_true.mp (hall _ (numberBase_mem sm)) c.toNat
    (List.mem_range.mpr c.toNat_lt)
  rw [UInt8.ofNat_toNat, Bool.or_eq_true, beq_iff_eq, beq_iff_eq] at hbyte
  rw [hbyte.resolve_left hc, decide_eq_true_iff]

/-- A digit of a base is none of the characters `strtol` skips before a number. -/
theorem digit_plain {c : UInt8} (h : digitValue c < 16) :
    isspace c = false ∧ c ≠ ch '-' ∧ c ≠ ch '+' ∧ c ≠ ch 'x' ∧ c ≠ ch 'X' ∧
      isHexOrUnderscore c = true ∧ c ≠ ch '_' ∧ c ≠ ch 's' ∧ c ≠ ch 'w' := by
  have hall := imp_of_all_bytes (p := fun c => decide (digitValue c < 16))
    (q := fun c => !isspace c && c != ch '-' && c != ch '+' && c != ch 'x' && c != ch 'X' &&
      isHexOrUnderscore c && c != ch '_' && c != ch 's' && c != ch 'w')
    (by decide +kernel) c (decide_eq_true h)
  simp only [Bool.and_eq_true, Bool.not_eq_true', bne_iff_ne, ne_eq] at hall
  simp [hall]

theorem foldl_intCast (base : Nat) (digits : Bytes) (n : Nat) :
    digits.foldl (fun (n : Int) d => base * n + digitValue d) n =
      (digits.foldl (fun n d => base * n + digitValue d) n : Nat) := by
  induction digits generalizing n with
  | nil => rfl
  | cons d digits ih =>
    rw [List.foldl_cons, List.foldl_cons, ← ih]
    simp

/-- The digits in front of the first underscore. -/
def leadingDigits (digits : Bytes) : Bytes := digits.takeWhile (· != ch '_')

theorem leadingDigits_eq_self {digits : Bytes} (h : ch '_' ∉ digits) :
    leadingDigits digits = digits := by
  rw [leadingDigits, List.takeWhile_eq_self_iff]
  intro c hc
  rw [bne_iff_ne]
  exact fun heq => h (heq ▸ hc)

theorem leadingDigits_eq_nil_iff {digits : Bytes} (hne : digits ≠ []) :
    leadingDigits digits = [] ↔ digits.head? = some (ch '_') := by
  cases digits with
  | nil => exact absurd rfl hne
  | cons d ds =>
    rw [leadingDigits, List.head?_cons, Option.some.injEq]
    by_cases h : d = ch '_'
    · rw [List.takeWhile_cons_of_neg (by rw [h]; decide)]
      exact iff_of_true rfl h
    · rw [List.takeWhile_cons_of_pos (by simpa using h)]
      exact iff_of_false (List.cons_ne_nil _ _) h

/-- `strtol` of digits and underscores is the value of the digits in front of the first
underscore: nothing of them is skipped, and the underscore ends them. -/
theorem strtol_leading {base : Nat} (hbase : base ≤ 16) {digits : Bytes}
    (h : ∀ c ∈ digits, c = ch '_' ∨ digitValue c < base) :
    strtol base digits =
      if leadingDigits digits = [] then none
      else some (numberValue base (leadingDigits digits) : Int) := by
  have hplain : ∀ c ∈ digits, isspace c = false ∧ c ≠ ch '-' ∧ c ≠ ch '+' ∧ c ≠ ch 'x' ∧
      c ≠ ch 'X' := by
    intro c hc
    rcases h c hc with rfl | hlt
    · decide
    · obtain ⟨hspace, hminus, hplus, hx, hX, _⟩ := digit_plain (Nat.lt_of_lt_of_le hlt hbase)
      exact ⟨hspace, hminus, hplus, hx, hX⟩
  have hdrop : digits.dropWhile isspace = digits := by
    cases digits with
    | nil => rfl
    | cons d ds =>
      rw [List.dropWhile_cons_of_neg]
      rw [(hplain d List.mem_cons_self).1]
      exact Bool.false_ne_true
  have hhead : ∀ c, (∀ d ∈ digits, d ≠ c) → (digits.head? == some c) = false := by
    intro c hc
    cases digits with
    | nil => rfl
    | cons d ds => simpa using hc d List.mem_cons_self
  have hsecond : ∀ c, (∀ d ∈ digits, d ≠ c) → (digits.tail.head? == some c) = false := by
    intro c hc
    rcases digits with _ | ⟨d, _ | ⟨e, ds⟩⟩
    · rfl
    · rfl
    · simpa using hc e (by simp)
  have hdigits : digitsOf base digits = leadingDigits digits := by
    refine takeWhile_congr fun c hc => ?_
    rcases h c hc with rfl | hlt
    · have hunderscore : digitValue (ch '_') = 36 := rfl
      rw [hunderscore, decide_eq_false (by omega)]
      rfl
    · have hne : c ≠ ch '_' := (digit_plain (Nat.lt_of_lt_of_le hlt hbase)).2.2.2.2.2.2.1
      rw [decide_eq_true hlt, eq_comm, bne_iff_ne]
      exact hne
  unfold strtol
  simp only [hdrop, hhead _ fun d hd => (hplain d hd).2.1, hhead _ fun d hd => (hplain d hd).2.2.1,
    hsecond _ fun d hd => (hplain d hd).2.2.2.1, hsecond _ fun d hd => (hplain d hd).2.2.2.2,
    Bool.or_self, Bool.false_eq_true, if_false, Bool.and_false, Bool.false_and, hdigits]
  exact if_congr Iff.rfl rfl (congrArg some (foldl_intCast base (leadingDigits digits) 0))

/-- `strtol` of a string of digits is their value. -/
theorem strtol_digits {base : Nat} (hbase : base ≤ 16) {digits : Bytes} (hne : digits ≠ [])
    (h : ∀ c ∈ digits, digitValue c < base) :
    strtol base digits = some (numberValue base digits : Int) := by
  have hunderscore : ch '_' ∉ digits := by
    intro hmem
    exact (digit_plain (Nat.lt_of_lt_of_le (h _ hmem) hbase)).2.2.2.2.2.2.1 rfl
  rw [strtol_leading hbase fun c hc => .inr (h c hc), leadingDigits_eq_self hunderscore,
    if_neg hne]

/-- `stoi` of a string of digits is their value, where it fits. -/
theorem stoi_digits {base : Nat} (hbase : base ≤ 16) {digits : Bytes} (hne : digits ≠ [])
    (h : ∀ c ∈ digits, digitValue c < base) (hlt : numberValue base digits < 2 ^ 31) :
    stoi digits base = .ok (numberValue base digits : Int) := by
  rw [stoi, strtol_digits hbase hne h]
  exact if_pos ⟨by omega, by omega⟩

/-! ## The expression -/

/-- The parts of a literal whose digits pass the expression of their base, which admits
underscores. -/
structure NumberMatch.Written (sm : NumberMatch) : Prop where
  sized : ∀ digits letter, sm.sized = some (digits, letter) →
    digits ≠ [] ∧ (∀ c ∈ digits, isdigit c = true) ∧ (letter = ch 's' ∨ letter = ch 'w')
  base : ∀ letter, sm.base = some letter → isBaseLetter letter = true
  nonempty : sm.digits ≠ []
  pass : sm.digits.all (isDigitOfBase (numberBase sm)) = true

theorem all_isDigitOfBase {sm : NumberMatch}
    (h : ∀ c ∈ sm.digits, digitValue c < numberBase sm) :
    sm.digits.all (isDigitOfBase (numberBase sm)) = true := by
  rw [List.all_eq_true]
  intro c hc
  obtain ⟨_, _, _, _, _, _, hne, _⟩ := digit_plain (digit_lt_sixteen (h c hc))
  exact (isDigitOfBase_iff hne).mpr (h c hc)

theorem IsLiteral.written {run : Bytes} {sm : NumberMatch} (h : IsLiteral run sm) :
    sm.Written where
  sized digits letter hs := by
    obtain ⟨hne, hdigits, hletter, _⟩ := h.sized digits letter hs
    exact ⟨hne, hdigits, hletter⟩
  base := h.base
  nonempty := h.nonempty
  pass := all_isDigitOfBase h.digits

/-- What passes the expression of a base passes the one for any digits, and is no letter of a
width. -/
theorem pass_plain {base : Nat} (hbase : base ∈ [2, 8, 10, 16]) {c : UInt8}
    (h : isDigitOfBase base c = true) :
    isHexOrUnderscore c = true ∧ c ≠ ch 's' ∧ c ≠ ch 'w' := by
  have hall : ∀ b ∈ [2, 8, 10, 16], (List.range 256).all (fun n =>
      !isDigitOfBase b (UInt8.ofNat n) || (isHexOrUnderscore (UInt8.ofNat n) &&
        UInt8.ofNat n != ch 's' && UInt8.ofNat n != ch 'w')) = true := by decide +kernel
  have hbyte := imp_of_all_bytes (p := isDigitOfBase base)
    (q := fun c => isHexOrUnderscore c && c != ch 's' && c != ch 'w') (hall base hbase) c h
  simpa [and_assoc] using hbyte

theorem matchDigits_eq_some {sized : Option (Bytes × UInt8)} {base : Option UInt8} {s : Bytes}
    {sm : NumberMatch} :
    matchDigits sized base s = some sm ↔
      sm = ⟨sized, base, s⟩ ∧ s ≠ [] ∧ s.all isHexOrUnderscore = true := by
  unfold matchDigits
  by_cases h : s ≠ [] ∧ s.all isHexOrUnderscore = true
  · rw [if_pos h, Option.some.injEq, eq_comm]
    exact ⟨fun heq => ⟨heq, h⟩, fun heq => heq.1⟩
  · rw [if_neg h]
    exact ⟨fun heq => absurd heq (Option.some_ne_none sm).symm, fun heq => absurd heq.2 h⟩

/-- What follows the width of a literal is matched as it is written. -/
theorem matchBase_of_written {sm : NumberMatch} (h : sm.Written) :
    matchBase sm.sized ((sm.base.elim [] fun letter => [ch '0', letter]) ++ sm.digits) =
      some sm := by
  have hhex : sm.digits.all isHexOrUnderscore = true := by
    rw [List.all_eq_true]
    intro c hc
    exact (pass_plain (numberBase_mem sm) (List.all_eq_true.mp h.pass c hc)).1
  have hdigits : ∀ base, matchDigits sm.sized base sm.digits = some ⟨sm.sized, base, sm.digits⟩ :=
    fun base => matchDigits_eq_some.mpr ⟨rfl, h.nonempty, hhex⟩
  cases hbase : sm.base with
  | some letter =>
    have hletter := h.base letter hbase
    rw [Option.elim_some, List.cons_append, List.singleton_append, matchBase,
      if_pos ⟨rfl, hletter⟩, hdigits, Option.some_or, ← hbase]
  | none =>
    -- the digits are decimal, so the second of them is not the letter of a base
    have hdecimal : ∀ c ∈ sm.digits, isBaseLetter c = false := by
      intro c hc
      have hpass := List.all_eq_true.mp h.pass c hc
      rw [show numberBase sm = 10 by rw [numberBase, hbase]] at hpass
      have hall := imp_of_all_bytes (p := isDigitOfBase 10) (q := fun c => !isBaseLetter c)
        (by decide +kernel) c hpass
      simpa using hall
    have hsm : some sm = matchDigits sm.sized none sm.digits := by rw [hdigits, ← hbase]
    rw [Option.elim_none, List.nil_append, hsm, matchBase.eq_def]
    split
    · rename_i zero letter digits hs
      have hletter := hdecimal letter (by rw [hs]; simp)
      rw [if_neg (by rw [hletter]; simp)]
    · rfl

theorem matchNumber_cons {s rest : Bytes} {c : UInt8} (h : s.dropWhile isdigit = c :: rest) :
    matchNumber s =
      if s.takeWhile isdigit ≠ [] ∧ (c = ch 's' ∨ c = ch 'w') then
        matchBase (some (s.takeWhile isdigit, c)) rest
      else matchBase none s := by
  rw [matchNumber, h]

theorem matchNumber_nil {s : Bytes} (h : s.dropWhile isdigit = []) :
    matchNumber s = matchBase none s := by
  rw [matchNumber, h]

/-- A literal is matched as it is written. -/
theorem matchNumber_of_written {run : Bytes} {sm : NumberMatch} (htext : sm.text = run)
    (h : sm.Written) : matchNumber run = some sm := by
  have hmatch := matchBase_of_written h
  unfold NumberMatch.text at htext
  cases hsized : sm.sized with
  | some sized =>
    obtain ⟨digits, letter⟩ := sized
    obtain ⟨hne, hdigits, hletter⟩ := h.sized digits letter hsized
    have hnot : ¬isdigit letter = true := by
      rcases hletter with rfl | rfl <;> decide
    rw [hsized, Option.elim_some, List.append_assoc, List.append_assoc,
      List.singleton_append] at htext
    rw [hsized] at hmatch
    have hstop : (letter :: ((sm.base.elim [] fun letter => [ch '0', letter]) ++
        sm.digits)).head?.any isdigit = false := Bool.eq_false_iff.mpr hnot
    obtain ⟨htake, hdrop⟩ := span_append hdigits hstop
    rw [htext] at htake hdrop
    rw [matchNumber_cons hdrop, htake, if_pos ⟨hne, hletter⟩, hmatch]
  | none =>
    -- neither the letter of a base nor a digit ends a width
    rw [hsized, Option.elim_none, List.nil_append] at htext
    rw [hsized, htext] at hmatch
    have hnone : ∀ c ∈ run, ¬(c = ch 's' ∨ c = ch 'w') := by
      intro c hc
      rw [← htext] at hc
      rcases List.mem_append.mp hc with hc | hc
      · cases hbase : sm.base with
        | none =>
          rw [hbase] at hc
          cases hc
        | some letter =>
          rw [hbase, Option.elim_some, List.mem_cons, List.mem_singleton] at hc
          rcases hc with rfl | rfl
          · decide
          · intro hwidth
            have hletter := h.base c hbase
            rcases hwidth with rfl | rfl <;> exact absurd hletter (by decide)
      · obtain ⟨_, hs, hw⟩ := pass_plain (numberBase_mem sm) (List.all_eq_true.mp h.pass c hc)
        exact fun hwidth => hwidth.elim hs hw
    cases hdrop : run.dropWhile isdigit with
    | nil => rw [matchNumber_nil hdrop, hmatch]
    | cons c rest =>
      have hmem : c ∈ run := (List.dropWhile_suffix isdigit).subset (hdrop ▸ List.mem_cons_self)
      rw [matchNumber_cons hdrop, if_neg (fun hwidth => hnone c hmem hwidth.2), hmatch]

theorem matchNumber_of_isLiteral {run : Bytes} {sm : NumberMatch} (h : IsLiteral run sm) :
    matchNumber run = some sm := matchNumber_of_written h.text h.written

/-- What is matched is written out of its groups. -/
theorem matchBase_eq_some {sized : Option (Bytes × UInt8)} {s : Bytes} {sm : NumberMatch}
    (h : matchBase sized s = some sm) :
    sm.sized = sized ∧ (sm.base.elim [] fun letter => [ch '0', letter]) ++ sm.digits = s ∧
      (∀ letter, sm.base = some letter → isBaseLetter letter = true) ∧ sm.digits ≠ [] ∧
      sm.digits.all isHexOrUnderscore = true := by
  have hplain : ∀ {s : Bytes}, matchDigits sized none s = some sm →
      sm.sized = sized ∧ (sm.base.elim [] fun letter => [ch '0', letter]) ++ sm.digits = s ∧
        (∀ letter, sm.base = some letter → isBaseLetter letter = true) ∧ sm.digits ≠ [] ∧
        sm.digits.all isHexOrUnderscore = true := by
    intro s h
    obtain ⟨rfl, hne, hall⟩ := matchDigits_eq_some.mp h
    refine ⟨rfl, rfl, fun letter hletter => ?_, hne, hall⟩
    cases hletter
  unfold matchBase at h
  split at h
  · rename_i zero letter digits
    split at h
    · rename_i hfront
      obtain ⟨rfl, hletter⟩ := hfront
      rcases Option.or_eq_some_iff.mp h with h | ⟨_, h⟩
      · obtain ⟨rfl, hne, hall⟩ := matchDigits_eq_some.mp h
        refine ⟨rfl, rfl, fun letter' h' => ?_, hne, hall⟩
        rw [← Option.some.inj h']
        exact hletter
      · exact hplain h
    · exact hplain h
  · exact hplain h

theorem matchNumber_eq_some {run : Bytes} {sm : NumberMatch} (h : matchNumber run = some sm) :
    sm.text = run ∧
      (∀ digits letter, sm.sized = some (digits, letter) →
        digits ≠ [] ∧ (∀ c ∈ digits, isdigit c = true) ∧ (letter = ch 's' ∨ letter = ch 'w')) ∧
      (∀ letter, sm.base = some letter → isBaseLetter letter = true) ∧ sm.digits ≠ [] ∧
      sm.digits.all isHexOrUnderscore = true := by
  have hnone : matchBase none run = some sm → sm.text = run ∧
      (∀ digits letter, sm.sized = some (digits, letter) →
        digits ≠ [] ∧ (∀ c ∈ digits, isdigit c = true) ∧ (letter = ch 's' ∨ letter = ch 'w')) ∧
      (∀ letter, sm.base = some letter → isBaseLetter letter = true) ∧ sm.digits ≠ [] ∧
      sm.digits.all isHexOrUnderscore = true := by
    intro h
    obtain ⟨hsized, htext, hrest⟩ := matchBase_eq_some h
    refine ⟨?_, fun digits letter hs => ?_, hrest⟩
    · rw [NumberMatch.text, hsized]
      exact htext
    · rw [hsized] at hs
      cases hs
  cases hdrop : run.dropWhile isdigit with
  | nil =>
    rw [matchNumber_nil hdrop] at h
    exact hnone h
  | cons c rest =>
    rw [matchNumber_cons hdrop] at h
    split at h
    · rename_i hwidth
      obtain ⟨hsized, htext, hrest⟩ := matchBase_eq_some h
      refine ⟨?_, fun digits letter hs => ?_, hrest⟩
      · rw [NumberMatch.text, hsized, Option.elim_some, List.append_assoc, htext]
        rw [List.append_assoc, List.singleton_append, ← hdrop, List.takeWhile_append_dropWhile]
      · rw [hsized] at hs
        cases hs
        refine ⟨hwidth.1, fun d hd => ?_, hwidth.2⟩
        exact List.mem_takeWhile_imp hd
    · exact hnone h

/-! ## Evaluation -/

theorem numberBase_le (sm : NumberMatch) : numberBase sm ≤ 16 := by
  have hle : ∀ b ∈ [2, 8, 10, 16], b ≤ 16 := by decide
  exact hle _ (numberBase_mem sm)

theorem digitValue_lt_of_isdigit {c : UInt8} (h : isdigit c = true) : digitValue c < 10 := by
  have hnine : c.toNat ≤ (ch '9').toNat := by
    simp only [isdigit, Bool.and_eq_true, decide_eq_true_eq] at h
    exact UInt8.le_iff_toNat_le.mp h.2
  rw [show (ch '9').toNat = 57 from rfl] at hnine
  rw [digitValue, if_pos h]
  omega

/-- The digits of a width are decimal digits. -/
theorem stoi_width {digits : Bytes} (hne : digits ≠ [])
    (hdigits : ∀ c ∈ digits, isdigit c = true) (hlt : numberValue 10 digits < 2 ^ 31) :
    stoi digits 10 = .ok (numberValue 10 digits : Int) :=
  stoi_digits (by decide) hne (fun c hc => digitValue_lt_of_isdigit (hdigits c hc)) hlt

theorem evalNumber_unsized {run : Bytes} {sm : NumberMatch} (hmatch : matchNumber run = some sm)
    (hsized : sm.sized = none) (lx : Lexer) : evalNumber run lx = setValue sm (-1) false lx := by
  rw [evalNumber, hmatch]
  simp only [hsized]

theorem evalNumber_sized {run : Bytes} {sm : NumberMatch} (hmatch : matchNumber run = some sm)
    {digits : Bytes} {letter : UInt8} (hsized : sm.sized = some (digits, letter)) {width : Nat}
    (hwidth : stoi digits 10 = .ok (width : Int)) (lx : Lexer) :
    evalNumber run lx =
      if letter = ch 's' ∧ Int32.ofNat width < 2 then
        (.ok .tUnknown, { lx with width := Int32.ofNat width })
      else
        setValue sm ((1 <<< Int32.ofNat width) - 1) (letter == ch 's')
          { lx with width := Int32.ofNat width } := by
  rw [evalNumber, hmatch]
  simp only [hsized, hwidth, Int32.ofInt_eq_ofNat, Bool.and_eq_true, beq_iff_eq,
    decide_eq_true_eq]

theorem ofNat_lt_two {width : Nat} (h : width < 2 ^ 31) : Int32.ofNat width < 2 ↔ width < 2 := by
  have htwo : (2 : Int32).toInt = 2 := rfl
  rw [Int32.lt_iff_toInt_lt, Int32.toInt_ofNat_of_lt h, htwo]
  omega

theorem setValue_unknown {sm : NumberMatch}
    (h : ¬sm.digits.all (isDigitOfBase (numberBase sm)) = true) (mask : Int32)
    (isSigned : Bool) (lx : Lexer) :
    setValue sm mask isSigned lx = (.ok .tUnknown, lx) := by
  simp only [setValue]
  exact if_neg h

/-! ## One literal of a text -/

/-- A text that a lexer collects as one literal: characters of literals other than underscores,
the first of them a digit, up to a character that is none. -/
structure Collected (run rest : Bytes) : Prop where
  first : run.head?.any isdigit = true
  chars : ∀ c ∈ run, (isNumberChar c && c != ch '_') = true
  behind : rest.head?.any isNumberChar = false

/-- A text that a lexer collects as one literal, underscores included. -/
structure IsRun (run rest : Bytes) : Prop where
  first : run.head?.any isdigit = true
  chars : ∀ c ∈ run, isNumberChar c = true
  behind : rest.head?.any isNumberChar = false

theorem Collected.isRun {run rest : Bytes} (h : Collected run rest) : IsRun run rest where
  first := h.first
  chars c hc := by
    have hchar := h.chars c hc
    rw [Bool.and_eq_true] at hchar
    exact hchar.1
  behind := h.behind

theorem Collected.underscore {run rest : Bytes} (h : Collected run rest) : ch '_' ∉ run := by
  intro hmem
  exact absurd (h.chars _ hmem) (by decide)

/-- A literal is collected to its end. -/
theorem IsRun.numberLoop {lx : Lexer} {run rest : Bytes} (hrun : IsRun run rest)
    (h : At lx (run ++ rest)) :
    (numberLoop [lx.last] lx.advance).1 = run ∧ At (numberLoop [lx.last] lx.advance).2 rest := by
  cases run with
  | nil => cases hrun.first
  | cons c s =>
    have hdigit : isdigit c = true := hrun.first
    have hlast : lx.last = c := h.1
    have hadvance : At lx.advance (s ++ rest) := view_at.advance h (ne_eof_of_isdigit hdigit)
    obtain ⟨htext, hrest⟩ := view_at.numberLoop hadvance [lx.last]
    have hchars : ∀ d ∈ s, isNumberChar d = true := fun d hd =>
      hrun.chars d (List.mem_cons_of_mem c hd)
    obtain ⟨htake, hdrop⟩ := span_append hchars hrun.behind
    rw [htake] at htext
    rw [hdrop] at hrest
    exact ⟨by rw [htext, hlast]; rfl, hrest⟩

theorem IsRun.readNumber_eq {lx : Lexer} {run rest : Bytes} (hrun : IsRun run rest)
    (h : At lx (run ++ rest)) :
    lx.readNumber = evalNumber run (Lexer.numberLoop [lx.last] lx.advance).2 := by
  rw [Lexer.readNumber_eq, (hrun.numberLoop h).1]

theorem At.evalNumber {lx : Lexer} {s : Bytes} (h : At lx s) (run : Bytes) :
    At (evalNumber run lx).2 s := by
  obtain ⟨value, width, hstate⟩ := evalNumber_state run lx
  rw [hstate]
  cases s with
  | nil => exact h
  | cons c s => exact h

end Lexer

end P4LS
