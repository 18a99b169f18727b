import P4LS.Lexer.Widths

/-!
# Digit separators

The expression of `read_number` admits underscores among the digits, and `stoi` stops at the
first of them.  So a literal with underscores stands for the digits in front of the first one,
cut to the width.  From a width of 31 bits on the shift is not defined, with underscores or
without, and what is said of the value there is what the wrapping operations give.
-/

namespace P4LS

open Bytes

namespace Lexer

/-- Underscores inserted into the digits of a literal, behind the first of them. -/
structure Separates (sm : NumberMatch) (digits : Bytes) : Prop where
  first : digits.head? = sm.digits.head?
  rest : digits.filter (· != ch '_') = sm.digits

/-- A literal with other digits. -/
def NumberMatch.withDigits (sm : NumberMatch) (digits : Bytes) : NumberMatch :=
  { sm with digits := digits }

/-- What a literal has in front of its digits. -/
def NumberMatch.front (sm : NumberMatch) : Bytes :=
  (sm.sized.elim [] fun (digits, letter) => digits ++ [letter]) ++
    (sm.base.elim [] fun letter => [ch '0', letter])

/-- The number that is read of digits with underscores. -/
def NumberMatch.separatedNumber (sm : NumberMatch) (digits : Bytes) : Nat :=
  numberValue (numberBase sm) (leadingDigits digits)

/-- The bits of a number that the width of a literal leaves of it.  The shift takes the width
modulo 32. -/
def NumberMatch.lowBits (sm : NumberMatch) (n : Nat) : Nat :=
  match sm.sized with
  | none => n
  | some (digits, _) => n % 2 ^ (numberValue 10 digits % 32)

/-- The other lexer reads a number too, with the same value and the same width. -/
structure ReadsSame (lx lx' : Lexer) : Prop where
  kind : lx'.readNumber.1 = .ok .tNumber
  value : lx'.readNumber.2.value = lx.readNumber.2.value
  width : lx'.readNumber.2.width = lx.readNumber.2.width

theorem NumberMatch.cut_eq_iff (sm : NumberMatch) {m n : Nat} :
    sm.cut m = sm.cut n ↔ sm.lowBits m = sm.lowBits n := by
  unfold NumberMatch.cut NumberMatch.lowBits
  cases sm.sized with
  | none => exact Int.ofNat_inj
  | some sized =>
    obtain ⟨digits, letter⟩ := sized
    by_cases hs : letter = ch 's'
    · simp only [hs, if_true]
      rw [BitVec.toInt_inj, ← BitVec.toNat_inj, BitVec.toNat_ofNat, BitVec.toNat_ofNat]
    · simp only [hs, if_false]
      exact Int.ofNat_inj

/-! ## The digits -/

theorem numberValue_append (base : Nat) (s t : Bytes) :
    numberValue base (s ++ t) =
      t.foldl (fun n d => base * n + digitValue d) (numberValue base s) := by
  rw [numberValue, List.foldl_append]
  rfl

theorem le_foldl_digits {base : Nat} (hbase : 0 < base) (t : Bytes) (n : Nat) :
    n ≤ t.foldl (fun n d => base * n + digitValue d) n := by
  induction t generalizing n with
  | nil => exact Nat.le_refl n
  | cons d t ih =>
    calc n ≤ base * n := Nat.le_mul_of_pos_left n hbase
      _ ≤ base * n + digitValue d := Nat.le_add_right _ _
      _ ≤ _ := ih _

theorem numberBase_pos (sm : NumberMatch) : 0 < numberBase sm := by
  have hpos : ∀ b ∈ [2, 8, 10, 16], 0 < b := by decide
  exact hpos _ (numberBase_mem sm)

variable {run : Bytes} {sm : NumberMatch} {digits : Bytes}

theorem Separates.separatedNumber_le (h : Separates sm digits) :
    sm.separatedNumber digits ≤ sm.digitsNumber := by
  obtain ⟨t, ht⟩ := takeWhile_prefix_filter (· != ch '_') digits
  rw [h.rest] at ht
  rw [NumberMatch.digitsNumber, ← ht, numberValue_append]
  exact le_foldl_digits (numberBase_pos sm) t _

theorem Separates.mem (h : Separates sm digits) {c : UInt8} (hc : c ∈ digits) :
    c = ch '_' ∨ c ∈ sm.digits := by
  by_cases hunderscore : c = ch '_'
  · exact .inl hunderscore
  · rw [← h.rest, List.mem_filter]
    exact .inr ⟨hc, by simpa using hunderscore⟩

/-! ## The separated literal -/

/-- Without underscores all digits of a literal are leading. -/
theorem leadingNumber_of_plain (htext : sm.text = run) (hplain : ch '_' ∉ run) :
    sm.leadingNumber = sm.digitsNumber := by
  have hdigits : ch '_' ∉ sm.digits := fun hmem => hplain (by
    rw [← htext, NumberMatch.text]
    exact List.mem_append_right _ hmem)
  rw [NumberMatch.leadingNumber, leadingDigits_eq_self hdigits]
  rfl

/-- The separated literal is accepted with the literal. -/
theorem Separates.accepted (h : Separates sm digits) (hplain : sm.leadingNumber = sm.digitsNumber)
    (haccepted : sm.Accepted) : (sm.withDigits digits).Accepted where
  width := haccepted.width
  wide := haccepted.wide
  pass := by
    rw [NumberMatch.DigitsPass, List.all_eq_true]
    intro c hc
    rcases h.mem hc with hunderscore | hmem
    · rw [hunderscore]
      rfl
    · exact List.all_eq_true.mp haccepted.pass c hmem
  digits := by
    obtain ⟨hhead, hlt⟩ := haccepted.digits
    have hle := h.separatedNumber_le
    refine ⟨?_, ?_⟩
    · show digits.head? ≠ some (ch '_')
      rw [h.first]
      exact hhead
    · show sm.separatedNumber digits < 2 ^ 31
      omega

/-- The expression matches the separated literal by the same parts. -/
theorem Separates.matchNumber_eq (h : Separates sm digits)
    (hmatch : matchNumber run = some sm) (haccepted : (sm.withDigits digits).Accepted) :
    matchNumber (sm.withDigits digits).text = some (sm.withDigits digits) := by
  obtain ⟨_, hsized, hbase, hne, _⟩ := matchNumber_eq_some hmatch
  refine matchNumber_of_written rfl ⟨hsized, hbase, fun hnil => ?_, haccepted.pass⟩
  have hfirst := h.first
  rw [show digits = [] from hnil, List.head?_nil, eq_comm, List.head?_eq_none_iff] at hfirst
  exact hne hfirst

/-- The separated literal is collected as one. -/
theorem Separates.isRun {rest rest' : Bytes} (h : Separates sm digits)
    (hmatch : matchNumber run = some sm) (hrun : IsRun run rest)
    (hbehind : rest'.head?.any isNumberChar = false) :
    IsRun (sm.withDigits digits).text rest' := by
  obtain ⟨htext, _⟩ := matchNumber_eq_some hmatch
  have hself : sm.front ++ sm.digits = run := htext
  have hfront : (sm.withDigits digits).text = sm.front ++ digits := rfl
  refine ⟨?_, fun c hc => ?_, hbehind⟩
  · have hfirst := hrun.first
    rw [← hself] at hfirst
    rw [hfront]
    cases hcases : sm.front with
    | nil =>
      rw [hcases, List.nil_append] at hfirst
      rwa [List.nil_append, h.first]
    | cons c front =>
      rw [hcases] at hfirst
      exact hfirst
  · rw [hfront, List.mem_append] at hc
    rcases hc with hc | hc
    · exact hrun.chars c (by rw [← hself]; exact List.mem_append_left _ hc)
    · rcases h.mem hc with hunderscore | hmem
      · rw [hunderscore]
        rfl
      · exact hrun.chars c (by rw [← hself]; exact List.mem_append_right _ hmem)

/-- Underscores among the digits of an accepted literal leave the token and the width, and they
leave the value if and only if the digits in front of the first underscore denote the same
number as all of them, up to the width.  Both literals are read by defined operations if and only
if they are narrow. -/
theorem readsSame_iff {lx lx' : Lexer} {rest rest' : Bytes} (hrun : Collected run rest)
    (h : At lx (run ++ rest)) (hmatch : matchNumber run = some sm)
    (hnumber : lx.readNumber.1 = .ok .tNumber) (hseparates : Separates sm digits)
    (hbehind : rest'.head?.any isNumberChar = false)
    (h' : At lx' ((sm.withDigits digits).text ++ rest')) (hwidth : lx'.width = lx.width) :
    (ReadsSame lx lx' ↔ sm.lowBits (sm.separatedNumber digits) = sm.lowBits sm.digitsNumber) ∧
      ((∃ o, lx.readNumberChecked = .ok o) ↔ sm.Narrow) ∧
      ((∃ o, lx'.readNumberChecked = .ok o) ↔ sm.Narrow) := by
  have hread := hrun.isRun.readNumber_eq h
  have hrun' := hseparates.isRun hmatch hrun.isRun hbehind
  have hread' := hrun'.readNumber_eq h'
  rw [hread, evalNumber_number_iff] at hnumber
  obtain ⟨sm', hsm', haccepted⟩ := hnumber
  rw [hmatch, Option.some.injEq] at hsm'
  subst hsm'
  have hplain := leadingNumber_of_plain (matchNumber_eq_some hmatch).1 hrun.underscore
  have haccepted' := hseparates.accepted hplain haccepted
  have hmatch' := hseparates.matchNumber_eq hmatch haccepted'
  obtain ⟨hvalue, hleft⟩ := evalNumber_accepted hmatch haccepted
    (numberLoop [lx.last] lx.advance).2
  obtain ⟨hvalue', hleft'⟩ := evalNumber_accepted hmatch' haccepted'
    (numberLoop [lx'.last] lx'.advance).2
  rw [← hread, hplain] at hvalue
  rw [← hread] at hleft
  rw [← hread'] at hvalue' hleft'
  have hsame : lx'.readNumber.2.value = lx.readNumber.2.value ↔
      sm.lowBits (sm.separatedNumber digits) = sm.lowBits sm.digitsNumber := by
    rw [← Int32.toInt_inj, hvalue, hvalue', ← sm.cut_eq_iff]
    rfl
  refine ⟨?_, ?_, ?_⟩
  · rw [← hsame]
    refine ⟨fun hsame => hsame.value, fun hvalue => ⟨?_, hvalue, ?_⟩⟩
    · rw [hread']
      exact evalNumber_number_iff.mpr ⟨_, hmatch', haccepted'⟩
    · rw [hleft, hleft', numberLoop_width, numberLoop_width, hwidth]
      rfl
  · rw [readNumberChecked_eq, (hrun.isRun.numberLoop h).1]
    exact exists_evalNumberChecked_iff hmatch haccepted _
  · rw [readNumberChecked_eq, (hrun'.numberLoop h').1]
    exact exists_evalNumberChecked_iff hmatch' haccepted' _

theorem readsSame_iff_one_bit :
    (ReadsSame (start (str "1w11;")).skipSpaces (start (str "1w1_1;")).skipSpaces ↔
        NumberMatch.lowBits ⟨some (str "1", ch 'w'), none, str "11"⟩ 1 =
          NumberMatch.lowBits ⟨some (str "1", ch 'w'), none, str "11"⟩ 11) ∧
      ((∃ o, (start (str "1w11;")).skipSpaces.readNumberChecked = .ok o) ↔
        NumberMatch.Narrow ⟨some (str "1", ch 'w'), none, str "11"⟩) ∧
      ((∃ o, (start (str "1w1_1;")).skipSpaces.readNumberChecked = .ok o) ↔
        NumberMatch.Narrow ⟨some (str "1", ch 'w'), none, str "11"⟩) := by
  have hrun : Collected (str "1w11") (str ";") := ⟨rfl, by decide, rfl⟩
  have hat : At (start (str "1w11;")).skipSpaces (str "1w11" ++ str ";") :=
    startsAt_start (str "1w11;")
  have hmatch : matchNumber (str "1w11") = some ⟨some (str "1", ch 'w'), none, str "11"⟩ := rfl
  have hnumber : ∀ lx : Lexer, (evalNumber (str "1w11") lx).1 = .ok .tNumber := fun lx => rfl
  have hseparates : Separates ⟨some (str "1", ch 'w'), none, str "11"⟩ (str "1_1") :=
    ⟨rfl, by decide⟩
  have hat' : At (start (str "1w1_1;")).skipSpaces (str "1w1_1" ++ str ";") :=
    startsAt_start (str "1w1_1;")
  refine readsSame_iff hrun hat hmatch ?_ hseparates (by decide) hat' ?_
  · rw [hrun.isRun.readNumber_eq hat]
    exact hnumber _
  · rw [(skips_skipSpaces _).width_eq, (skips_skipSpaces _).width_eq]
    rfl

/-- What follows the underscore of `1_0` is lost. -/
theorem not_readsSame_ten :
    (start (str "10;")).skipSpaces.readNumber.1 = .ok .tNumber ∧
      matchNumber (str "10") = some ⟨none, none, str "10"⟩ ∧
      Separates ⟨none, none, str "10"⟩ (str "1_0") ∧
      ¬ReadsSame (start (str "10;")).skipSpaces (start (str "1_0;")).skipSpaces := by
  have hrun : IsRun (str "10") (str ";") := ⟨rfl, by decide, rfl⟩
  have hrun' : IsRun (str "1_0") (str ";") := ⟨rfl, by decide, rfl⟩
  have hread := hrun.readNumber_eq (startsAt_start (str "10;"))
  have hread' := hrun'.readNumber_eq (startsAt_start (str "1_0;"))
  have hten : ∀ lx : Lexer, (evalNumber (str "10") lx).1 = .ok .tNumber ∧
      (evalNumber (str "10") lx).2.value = 10 := fun lx => ⟨rfl, rfl⟩
  have hone : ∀ lx : Lexer, (evalNumber (str "1_0") lx).2.value = 1 := fun lx => rfl
  refine ⟨?_, rfl, ⟨rfl, by decide⟩, fun hsame => ?_⟩
  · rw [hread]
    exact (hten _).1
  · have hvalue := hsame.value
    rw [hread, hread', hone, (hten _).2] at hvalue
    revert hvalue
    decide

end Lexer

end P4LS
