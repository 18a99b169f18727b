import P4LS.Lexer.Printing
import P4LS.Lexer.Tokens

/-!
# Maximal munch

The operator a call returns is the longest one of the table that the text starts
with.  Only the saturating operators are an exception: once `|+` or `|-` is read
there is no way back to `|`.
-/

namespace P4LS

open Bytes

namespace Lexer

/-! ## The longest operator -/

/-- `text` is the longest entry of the table that `s` starts with, `token` its token, and `rest`
what follows it. -/
structure IsLongest (table : List (Bytes × Token)) (s text : Bytes) (token : Token)
    (rest : Bytes) : Prop where
  mem : (text, token) ∈ table
  eq : s = text ++ rest
  longest : ∀ entry ∈ table, entry.1 <+: s → entry.1.length ≤ text.length

/-- The operators that begin with a character. -/
def family (c : UInt8) : List Bytes :=
  (operators.filter (·.1.head? == some c)).map Prod.fst

theorem mem_family {entry : Bytes × Token} (h : entry ∈ operators) {c : UInt8} {s : Bytes}
    (hfront : entry.1 <+: c :: s) : entry.1 ∈ family c := by
  refine List.mem_map.mpr ⟨entry, List.mem_filter.mpr ⟨h, ?_⟩, rfl⟩
  cases htext : entry.1 with
  | nil =>
    have hstarts : startsOperator entry.1 = true := startsOperator_operators h
    rw [htext] at hstarts
    cases hstarts
  | cons d text =>
    rw [htext, List.cons_prefix_cons] at hfront
    rw [hfront.1]
    exact beq_self_eq_true (some c)

theorem isLongest_of_family {c : UInt8} {s text rest : Bytes} {token : Token}
    (hmem : (text, token) ∈ operators) (heq : c :: s = text ++ rest)
    (hfamily : ∀ other ∈ family c, other.length ≤ text.length ∨ ¬other <+: c :: s) :
    IsLongest operators (c :: s) text token rest := by
  refine ⟨hmem, heq, fun entry hentry hfront => ?_⟩
  exact (hfamily entry.1 (mem_family hentry hfront)).resolve_right fun h => h hfront

theorem not_prefix_second {c d : UInt8} {w s : Bytes} (h : s.head? ≠ some d) :
    ¬(c :: d :: w) <+: c :: s := by
  rw [List.cons_prefix_cons]
  intro hfront
  obtain ⟨t, rfl⟩ := hfront.2
  exact h rfl

/-- An operator that no other one begins with. -/
theorem longest_single {c : UInt8} {token : Token} (hmem : ([c], token) ∈ operators)
    (hfamily : family c = [[c]]) (s : Bytes) : IsLongest operators (c :: s) [c] token s := by
  refine isLongest_of_family hmem rfl fun other hother => .inl ?_
  rw [hfamily, List.mem_singleton] at hother
  rw [hother]

/-- An operator of one character and one that goes on with another. -/
theorem longest_pair {c d : Char} {long short : Token}
    (hlong : ([ch c, ch d], long) ∈ operators) (hshort : ([ch c], short) ∈ operators)
    (hfamily : ∀ other ∈ family (ch c), other = [ch c] ∨ other = [ch c, ch d]) (s : Bytes) :
    ∃ text, IsLongest operators (ch c :: s) text (followText s d long short).1
      (followText s d long short).2 := by
  unfold followText
  by_cases hd : s.head? = some (ch d)
  · rw [if_pos hd]
    obtain ⟨t, rfl⟩ := List.head?_eq_some_iff.mp hd
    refine ⟨[ch c, ch d], isLongest_of_family hlong rfl fun other hother => .inl ?_⟩
    rcases hfamily other hother with h | h
    · rw [h]
      exact Nat.le_succ 1
    · rw [h]
  · rw [if_neg hd]
    refine ⟨[ch c], isLongest_of_family hshort rfl fun other hother => ?_⟩
    rcases hfamily other hother with h | h
    · exact .inl (by rw [h])
    · exact .inr (by rw [h]; exact not_prefix_second hd)

/-- The characters an operator of the table begins with, `@` apart. -/
def operatorChars : Bytes := str "!%&()*+,-./:;<=>?[]^\x7b|\x7d~"

/-- A saturating operator that is not completed. -/
def unfinishedSat : Bytes → Bool
  | bar :: sign :: s =>
    bar == ch '|' && (sign == ch '+' || sign == ch '-') && s.head? != some (ch '|')
  | _ => false

theorem longest_punctuator {entry : Bytes × Token} (h : entry ∈ punctuators) {c : UInt8}
    (hc : entry.1 = [c]) (s : Bytes) :
    IsLongest operators (c :: s) [c] (munch c s).1 (munch c s).2 := by
  have hfamily : ∀ entry ∈ punctuators, family (entry.1.headD 0) = [[entry.1.headD 0]] := by
    decide
  have hmunch : ∀ entry ∈ punctuators, ∀ s, munch (entry.1.headD 0) s = (entry.2, s) := by
    simp only [punctuators, List.forall_mem_cons, List.not_mem_nil, false_implies, implies_true,
      and_true]
    refine ⟨?_, ?_, ?_, ?_, ?_, ?_, ?_, ?_, ?_, ?_, ?_, ?_, ?_, ?_, ?_, ?_⟩
    all_goals exact fun s => rfl
  have hmem : ([c], entry.2) ∈ operators := by
    rw [← hc]
    exact List.mem_append_left _ (List.mem_append_left _ h)
  have hfamily' := hfamily entry h
  have hmunch' := hmunch entry h s
  rw [hc, List.headD_cons] at hfamily' hmunch'
  rw [hmunch']
  exact longest_single hmem hfamily' s

theorem longest_and (s : Bytes) :
    ∃ text, IsLongest operators (ch '&' :: s) text (munch (ch '&') s).1 (munch (ch '&') s).2 := by
  have hmunch : munch (ch '&') s =
      if s.head? = some (ch '&') then followText s.tail '&' .tMask .tAnd else (.tBitAnd, s) := rfl
  have hfamily : ∀ other ∈ family (ch '&'),
      other = str "&" ∨ other = str "&&" ∨ other = str "&&&" := by decide
  rw [hmunch]
  by_cases hsecond : s.head? = some (ch '&')
  · rw [if_pos hsecond]
    obtain ⟨t, rfl⟩ := List.head?_eq_some_iff.mp hsecond
    rw [List.tail_cons, followText]
    by_cases hthird : t.head? = some (ch '&')
    · rw [if_pos hthird]
      obtain ⟨u, rfl⟩ := List.head?_eq_some_iff.mp hthird
      refine ⟨str "&&&",
        isLongest_of_family (show (str "&&&", .tMask) ∈ operators by decide) rfl
          fun other hother => .inl ?_⟩
      rcases hfamily other hother with h | h | h <;> rw [h] <;> decide
    · rw [if_neg hthird]
      refine ⟨str "&&",
        isLongest_of_family (show (str "&&", .tAnd) ∈ operators by decide) rfl
          fun other hother => ?_⟩
      rcases hfamily other hother with h | h | h
      · exact .inl (by rw [h]; decide)
      · exact .inl (by rw [h])
      · refine .inr fun hfront => ?_
        rw [h] at hfront
        exact not_prefix_second hthird (List.cons_prefix_cons.mp hfront).2
  · rw [if_neg hsecond]
    refine ⟨str "&",
      isLongest_of_family (show (str "&", .tBitAnd) ∈ operators by decide) rfl
        fun other hother => ?_⟩
    rcases hfamily other hother with h | h | h
    · exact .inl (by rw [h])
    · exact .inr (by rw [h]; exact not_prefix_second hsecond)
    · exact .inr (by rw [h]; exact not_prefix_second hsecond)

theorem longest_angle (s : Bytes) :
    ∃ text, IsLongest operators (ch '<' :: s) text (munch (ch '<') s).1 (munch (ch '<') s).2 := by
  have hmunch : munch (ch '<') s =
      if s.head? = some (ch '<') then (.tShl, s.tail) else followText s '=' .tLe .tLAngle := rfl
  have hfamily : ∀ other ∈ family (ch '<'),
      other = str "<" ∨ other = str "<<" ∨ other = str "<=" := by decide
  have hlong : ∀ {text other : Bytes}, text.length = 2 → other ∈ family (ch '<') →
      other.length ≤ text.length := by
    intro text other htext hother
    rcases hfamily other hother with h | h | h <;> rw [h, htext] <;> decide
  rw [hmunch, followText]
  by_cases hshift : s.head? = some (ch '<')
  · rw [if_pos hshift]
    obtain ⟨t, rfl⟩ := List.head?_eq_some_iff.mp hshift
    exact ⟨str "<<",
      isLongest_of_family (show (str "<<", .tShl) ∈ operators by decide) rfl
        fun other hother => .inl (hlong rfl hother)⟩
  rw [if_neg hshift]
  by_cases heq : s.head? = some (ch '=')
  · rw [if_pos heq]
    obtain ⟨t, rfl⟩ := List.head?_eq_some_iff.mp heq
    exact ⟨str "<=",
      isLongest_of_family (show (str "<=", .tLe) ∈ operators by decide) rfl
        fun other hother => .inl (hlong rfl hother)⟩
  · rw [if_neg heq]
    refine ⟨str "<",
      isLongest_of_family (show (str "<", .tLAngle) ∈ operators by decide) rfl
        fun other hother => ?_⟩
    rcases hfamily other hother with h | h | h
    · exact .inl (by rw [h])
    · exact .inr (by rw [h]; exact not_prefix_second hshift)
    · exact .inr (by rw [h]; exact not_prefix_second heq)

theorem munch_bar (s : Bytes) :
    munch (ch '|') s =
      if s.head? = some (ch '+') then followText s.tail '|' .tPlusSat .tUnknown
      else if s.head? = some (ch '-') then followText s.tail '|' .tMinusSat .tUnknown
      else followText s '|' .tOr .tBitOr := rfl

theorem longest_bar {s : Bytes} (hsat : unfinishedSat (ch '|' :: s) = false) :
    ∃ text, IsLongest operators (ch '|' :: s) text (munch (ch '|') s).1 (munch (ch '|') s).2 := by
  have hfamily : ∀ other ∈ family (ch '|'), other = str "|" ∨ other = str "||" ∨
      other = str "|+|" ∨ other = str "|-|" := by decide
  have hthree : ∀ {other : Bytes}, other ∈ family (ch '|') → other.length ≤ 3 := by
    intro other hother
    rcases hfamily other hother with h | h | h | h <;> rw [h] <;> decide
  have hclosed : ∀ {sign : UInt8} {t : Bytes}, s = sign :: t →
      sign = ch '+' ∨ sign = ch '-' → t.head? = some (ch '|') := by
    intro sign t hs hsign
    rw [hs] at hsat
    rcases hsign with h | h <;> simpa [unfinishedSat, h] using hsat
  rw [munch_bar]
  by_cases hplus : s.head? = some (ch '+')
  · rw [if_pos hplus]
    obtain ⟨t, rfl⟩ := List.head?_eq_some_iff.mp hplus
    have hbar := hclosed rfl (.inl rfl)
    rw [List.tail_cons, followText, if_pos hbar]
    obtain ⟨u, rfl⟩ := List.head?_eq_some_iff.mp hbar
    exact ⟨str "|+|",
      isLongest_of_family (show (str "|+|", .tPlusSat) ∈ operators by decide) rfl
        fun other hother => .inl (hthree hother)⟩
  rw [if_neg hplus]
  by_cases hminus : s.head? = some (ch '-')
  · rw [if_pos hminus]
    obtain ⟨t, rfl⟩ := List.head?_eq_some_iff.mp hminus
    have hbar := hclosed rfl (.inr rfl)
    rw [List.tail_cons, followText, if_pos hbar]
    obtain ⟨u, rfl⟩ := List.head?_eq_some_iff.mp hbar
    exact ⟨str "|-|",
      isLongest_of_family (show (str "|-|", .tMinusSat) ∈ operators by decide) rfl
        fun other hother => .inl (hthree hother)⟩
  rw [if_neg hminus, followText]
  by_cases hbar : s.head? = some (ch '|')
  · rw [if_pos hbar]
    obtain ⟨t, rfl⟩ := List.head?_eq_some_iff.mp hbar
    refine ⟨str "||",
      isLongest_of_family (show (str "||", .tOr) ∈ operators by decide) rfl
        fun other hother => ?_⟩
    rcases hfamily other hother with h | h | h | h
    · exact .inl (by rw [h]; decide)
    · exact .inl (by rw [h])
    · exact .inr (by rw [h]; exact not_prefix_second hplus)
    · exact .inr (by rw [h]; exact not_prefix_second hminus)
  · rw [if_neg hbar]
    refine ⟨str "|",
      isLongest_of_family (show (str "|", .tBitOr) ∈ operators by decide) rfl
        fun other hother => ?_⟩
    rcases hfamily other hother with h | h | h | h
    · exact .inl (by rw [h])
    · exact .inr (by rw [h]; exact not_prefix_second hbar)
    · exact .inr (by rw [h]; exact not_prefix_second hplus)
    · exact .inr (by rw [h]; exact not_prefix_second hminus)

theorem operatorChars_cases : ∀ c ∈ operatorChars, (∃ entry ∈ punctuators, entry.1 = [c]) ∨
    c ∈ str "!+.=>" ∨ c = ch '&' ∨ c = ch '<' ∨ c = ch '|' := by decide

/-- On the text the operator that is read is the longest one. -/
theorem munch_longest {c : UInt8} {s : Bytes} (hop : c ∈ operatorChars)
    (hsat : unfinishedSat (c :: s) = false) :
    ∃ text, IsLongest operators (c :: s) text (munch c s).1 (munch c s).2 := by
  rcases operatorChars_cases c hop with h | h | h | h | h
  · obtain ⟨entry, hentry, hc⟩ := h
    exact ⟨[c], longest_punctuator hentry hc s⟩
  · have hpairs : str "!+.=>" = [ch '!', ch '+', ch '.', ch '=', ch '>'] := rfl
    simp only [hpairs, List.mem_cons, List.not_mem_nil, or_false] at h
    rcases h with h | h | h | h | h <;> rw [h]
    all_goals exact longest_pair (by decide) (by decide) (by decide) s
  · rw [h]
    exact longest_and s
  · rw [h]
    exact longest_angle s
  · rw [h] at hsat ⊢
    exact longest_bar hsat

theorem munch_unfinished {c : UInt8} {s : Bytes} (h : unfinishedSat (c :: s) = true) :
    (munch c s).1 = .tUnknown := by
  cases s with
  | nil => cases h
  | cons sign t =>
    simp only [unfinishedSat, Bool.and_eq_true, Bool.or_eq_true, beq_iff_eq, bne_iff_ne,
      ne_eq] at h
    obtain ⟨⟨rfl, hsign⟩, hopen⟩ := h
    rcases hsign with rfl | rfl
    · rw [munch_bar, if_pos List.head?_cons, List.tail_cons, followText, if_neg hopen]
    · rw [munch_bar, if_neg (by simp [show ch '-' ≠ ch '+' by decide]),
        if_pos List.head?_cons,
        List.tail_cons, followText, if_neg hopen]

/-! ## One call -/

/-- The call returns the longest operator the text starts with, which is a token, and consumes
its characters and no others. -/
def Munches (lx : Lexer) (s : Bytes) : Prop :=
  ∃ o text token rest, Completes lx o ∧ IsLongest operators s text token rest ∧
    o.1 = .ok token ∧ o.1 ≠ .ok .tUnknown ∧ At o.2 rest

theorem isOperatorStart_operatorChars : ∀ c ∈ operatorChars, isOperatorStart c = true := by
  decide

theorem ne_unknown_operators : ∀ entry ∈ operators, entry.2 ≠ .tUnknown := by decide

/-- A call at an operator returns what is read of it on the text. -/
theorem exists_completes_operator {lx : Lexer} {c : UInt8} {s : Bytes}
    (h : StartsAt lx (c :: s)) (hstart : isOperatorStart c = true)
    (hcomment : ¬(c = ch '/' ∧ (s.head? = some (ch '/') ∨ s.head? = some (ch '*')))) :
    ∃ o, Completes lx o ∧ o.1 = .ok (munch c s).1 ∧ At o.2 (munch c s).2 := by
  have hlast : lx.skipSpaces.last = c := h.1
  have hat : At lx.skipSpaces.advance s := view_at.advance h (ne_eof_of_isOperatorStart hstart)
  obtain ⟨hkind, hrest⟩ := view_at.readOperator hat c
  rw [← hlast] at hstart
  have hscan := Scan.operator hstart (fun hslash => hcomment
    ⟨hlast.symm.trans hslash.1, hslash.2.imp (view_at.last_iff hat (by decide)).mp
      (view_at.last_iff hat (by decide)).mp⟩)
  rw [hlast] at hscan
  exact ⟨_, completes_of_scan hscan, congrArg Except.ok hkind, hrest⟩

/-- Operators are read by maximal munch, unless a saturating one is begun and not completed. -/
theorem munches_iff {lx : Lexer} {c : UInt8} {s : Bytes} (h : StartsAt lx (c :: s))
    (hop : c ∈ operatorChars)
    (hcomment : ¬(c = ch '/' ∧ (s.head? = some (ch '/') ∨ s.head? = some (ch '*')))) :
    Munches lx (c :: s) ↔ unfinishedSat (c :: s) = false := by
  obtain ⟨o, ho, hkind, hat⟩ :=
    exists_completes_operator h (isOperatorStart_operatorChars c hop) hcomment
  constructor
  · intro hmunches
    obtain ⟨o', _, _, _, ho', _, _, hne, _⟩ := hmunches
    rw [ho'.unique ho, hkind] at hne
    rw [Bool.eq_false_iff]
    intro hsat
    exact hne (congrArg Except.ok (munch_unfinished hsat))
  · intro hsat
    obtain ⟨text, hlongest⟩ := munch_longest hop hsat
    refine ⟨o, text, _, _, ho, hlongest, hkind, ?_, hat⟩
    rw [hkind]
    exact fun hne => ne_unknown_operators _ hlongest.mem (Except.ok.inj hne)

theorem munches_iff_mask :
    Munches (start (str "&&& x")) (str "&&& x") ↔ unfinishedSat (str "&&& x") = false :=
  munches_iff (startsAt_start (str "&&& x")) (by decide +kernel) (by decide +kernel)

/-- The lone `|` of `|+x` is not read back. -/
theorem not_munches_plus :
    StartsAt (start (str "|+x")) (str "|+x") ∧ ¬Munches (start (str "|+x")) (str "|+x") := by
  have hstarts : StartsAt (start (str "|+x")) (str "|+x") := startsAt_start (str "|+x")
  refine ⟨hstarts, ?_⟩
  obtain ⟨o, ho, hkind, _⟩ := exists_completes_operator hstarts (by decide) (by decide +kernel)
  intro hmunches
  obtain ⟨o', _, _, _, ho', _, _, hne, _⟩ := hmunches
  rw [ho'.unique ho, hkind] at hne
  exact hne rfl

end Lexer

end P4LS
