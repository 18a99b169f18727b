import P4LS.Lexer.Conversions

/-!
# The end of the input

The lookahead is a `char`, and the byte 255 compares equal to `EOF` there.  The lexer takes the
first such byte of a text for the end of the input: it reads the text in front of the byte as
the whole input, and what stands behind the byte stays in the stream.
-/

namespace P4LS

open Bytes

namespace Lexer

/-! ## Where a text stops -/

/-- Nothing, or bytes of which the first reads as `EOF`. -/
def Stops (stop : Bytes) : Prop := stop.headD EOF = EOF

/-- A lexer stands at a text that `stop` follows in the stream.  At the end of the text the
first byte of `stop` is consumed. -/
def Before (stop : Bytes) (lx : Lexer) : Bytes → Prop
  | [] => lx.last = EOF ∧ lx.is.rest = stop.tail
  | c :: s => lx.last = c ∧ lx.is = Istream.ofBytes (s ++ stop)

/-- A text without the byte that reads as `EOF`, a line or a comment. -/
structure Uncommented (s : Bytes) : Prop where
  eof : EOF ∉ s
  slash : ch '/' ∉ s
  hash : ch '#' ∉ s

/-- The number that starts a text, if there is one, converts. -/
def StartConverts (c : UInt8) (s : Bytes) : Prop :=
  isdigit c = true → ∀ sm, matchNumber (c :: s.takeWhile isNumberChar) = some sm → sm.Converts

/-- Every number the lexer comes to in a text without comments converts.  Behind the first quote
it comes to strings only. -/
def NumbersConvert : Bytes → Prop
  | [] => True
  | c :: s =>
    if isWordStart c then NumbersConvert (s.dropWhile isWordChar)
    else if isdigit c then StartConverts c s ∧ NumbersConvert (s.dropWhile isNumberChar)
    else if c = ch '"' then True
    else NumbersConvert s
termination_by s => s.length
decreasing_by
  · exact Nat.lt_succ_of_le (List.dropWhile_suffix _).length_le
  · exact Nat.lt_succ_of_le (List.dropWhile_suffix _).length_le
  · exact Nat.lt_succ_self _

/-- Whenever a call returns `T_END` and no call before it threw, every byte of the input has been
consumed. -/
def ConsumesAll (input : Bytes) : Prop :=
  ∀ os o lx, Calls (start input) (os ++ [o]) lx → (∀ o ∈ os, o.1.Returns) → o.1 = .ok .tEnd →
    lx.is.rest = []

theorem Uncommented.of_suffix {s t : Bytes} (h : Uncommented s) (hsuffix : t <:+ s) :
    Uncommented t :=
  ⟨fun hmem => h.eof (hsuffix.subset hmem), fun hmem => h.slash (hsuffix.subset hmem),
    fun hmem => h.hash (hsuffix.subset hmem)⟩

theorem Uncommented.head {c : UInt8} {s : Bytes} (h : Uncommented (c :: s)) :
    c ≠ EOF ∧ c ≠ ch '/' ∧ c ≠ ch '#' :=
  ⟨fun heq => h.eof (heq ▸ List.mem_cons_self), fun heq => h.slash (heq ▸ List.mem_cons_self),
    fun heq => h.hash (heq ▸ List.mem_cons_self)⟩

/-! ## The loops stop there -/

section Before

variable {stop : Bytes} {lx : Lexer} {s : Bytes}

theorem Before.last (h : Before stop lx s) : lx.last = s.headD EOF := by
  cases s with
  | nil => exact h.1
  | cons c s => exact h.1

theorem Before.congr {lx' : Lexer} (h : Before stop lx s) (hlast : lx'.last = lx.last)
    (his : lx'.is = lx.is) : Before stop lx' s := by
  cases s with
  | nil => exact ⟨hlast.trans h.1, by rw [his]; exact h.2⟩
  | cons c s => exact ⟨hlast.trans h.1, his.trans h.2⟩

theorem Before.getLast (hstop : Stops stop) {c : UInt8} (h : Before stop lx (c :: s)) :
    Before stop lx.getLast s := by
  obtain ⟨_, his⟩ := h
  cases s with
  | nil =>
    cases stop with
    | nil => exact ⟨by rw [Lexer.getLast, his]; rfl, by rw [Lexer.getLast, his]; rfl⟩
    | cons d stop =>
      have hd : d = EOF := hstop
      exact ⟨by rw [Lexer.getLast, his]; exact hd, by rw [Lexer.getLast, his]; rfl⟩
  | cons d s => exact ⟨by rw [Lexer.getLast, his]; rfl, by rw [Lexer.getLast, his]; rfl⟩

theorem view_before (hstop : Stops stop) : View (Before stop) where
  last h := h.last
  advance {lx c s} h hne := by
    have hlx : lx.last ≠ EOF := by
      rw [h.1]
      exact hne
    exact (h.getLast hstop).congr (advance_last hlx) (advance_is hlx)

theorem Before.exists_cons (h : Before stop lx s) (hne : lx.last ≠ EOF) :
    ∃ t, s = lx.last :: t := by
  cases s with
  | nil => exact absurd h.1 hne
  | cons c t => exact ⟨t, by rw [h.1]⟩

/-- The loop of `read_identifier` drops the characters of words. -/
theorem Before.wordLoop (hstop : Stops stop) {c : UInt8} (h : Before stop lx (c :: s)) :
    Before stop lx.wordLoop (s.dropWhile isWordChar) := by
  fun_induction Lexer.wordLoop lx generalizing c s with
  | case1 lx hchar ih =>
    have hnext := h.getLast hstop
    obtain ⟨t, rfl⟩ := hnext.exists_cons (ne_eof_of_isWordChar hchar)
    rw [List.dropWhile_cons_of_pos hchar]
    exact ih (hnext.congr rfl rfl)
  | case2 lx hchar =>
    have hnext := h.getLast hstop
    cases s with
    | nil => exact hnext
    | cons d s =>
      rw [hnext.1] at hchar
      rw [List.dropWhile_cons_of_neg hchar]
      exact hnext

/-- The loop of `read_string` stops at the closing quote, or where the text does. -/
theorem Before.stringLoop (hstop : Stops stop) (hs : EOF ∉ s) (h : Before stop lx s) :
    Before stop (stringLoop lx).2 (stringEnd s) := by
  fun_induction Lexer.stringLoop lx generalizing s with
  | case1 lx hquote =>
    obtain ⟨t, rfl⟩ := h.exists_cons (by rw [hquote]; decide)
    rw [hquote] at h ⊢
    rw [stringEnd_quote]
    exact h
  | case2 lx _ hend =>
    cases s with
    | nil => exact h
    | cons c s => exact absurd (h.1.symm.trans hend) fun heq => hs (heq ▸ List.mem_cons_self)
  | case3 lx _ hne hescape hend =>
    obtain ⟨t, rfl⟩ := h.exists_cons hne
    have hnext := h.getLast hstop
    cases t with
    | nil =>
      rw [hescape]
      exact hnext
    | cons d t =>
      exact absurd (hnext.1.symm.trans hend) fun heq => hs (by simp [heq])
  | case4 lx _ hne hescape hend ih =>
    obtain ⟨t, rfl⟩ := h.exists_cons hne
    obtain ⟨u, rfl⟩ := (h.getLast hstop).exists_cons hend
    have hu : EOF ∉ u := fun hmem => hs (by simp [hmem])
    rw [hescape, stringEnd_escape]
    exact ih hu (((h.getLast hstop).getLast hstop).congr rfl rfl)
  | case5 lx hquote hne hescape ih =>
    obtain ⟨t, rfl⟩ := h.exists_cons hne
    rw [stringEnd_cons hquote hescape]
    exact ih (fun hmem => hs (List.mem_cons_of_mem _ hmem)) ((h.getLast hstop).congr rfl rfl)

theorem stringLoop_ne_end (lx : Lexer) : (stringLoop lx).1 ≠ .tEnd := by
  fun_induction Lexer.stringLoop lx with
  | case1 => exact Token.noConfusion
  | case2 => exact Token.noConfusion
  | case3 => exact Token.noConfusion
  | case4 _ _ _ _ _ ih => exact ih
  | case5 _ _ _ _ ih => exact ih

end Before

/-! ## One call -/

theorem numbersConvert_nil : NumbersConvert [] := by
  rw [NumbersConvert]
  exact trivial

theorem numbersConvert_quote (s : Bytes) : NumbersConvert (ch '"' :: s) := by
  rw [NumbersConvert, if_neg (by decide), if_neg (by decide), if_pos rfl]
  exact trivial

/-- The characters that start neither a word nor a number nor a string. -/
def startsNothing (c : UInt8) : Bool := !isWordStart c && !isdigit c && c != ch '"'

theorem startsNothing_of_isspace {c : UInt8} (h : isspace c = true) : startsNothing c = true := by
  have hchar := isWordChar_of_isspace h
  simp only [isWordChar, isalnum, Bool.or_eq_false_iff] at hchar
  obtain ⟨⟨halpha, hdigit⟩, hunderscore⟩ := hchar
  rw [startsNothing, isWordStart, halpha, hunderscore, hdigit]
  simpa using ne_of_class h (show isspace (ch '"') = false by decide)

theorem numbersConvert_cons {c : UInt8} (h : startsNothing c = true) (s : Bytes) :
    NumbersConvert (c :: s) ↔ NumbersConvert s := by
  simp only [startsNothing, Bool.and_eq_true, Bool.not_eq_true', bne_iff_ne, ne_eq] at h
  obtain ⟨⟨hword, hdigit⟩, hquote⟩ := h
  rw [NumbersConvert, hword, hdigit, if_neg Bool.false_ne_true, if_neg Bool.false_ne_true,
    if_neg hquote]

theorem numbersConvert_dropWhile (s : Bytes) :
    NumbersConvert (s.dropWhile isspace) ↔ NumbersConvert s := by
  induction s with
  | nil => exact Iff.rfl
  | cons c s ih =>
    by_cases h : isspace c = true
    · rw [List.dropWhile_cons_of_pos h, ih,
        numbersConvert_cons (startsNothing_of_isspace h)]
    · rw [List.dropWhile_cons_of_neg h]

theorem numbersConvert_followText (s : Bytes) {c : Char} (hc : startsNothing (ch c) = true)
    (long short : Token) : NumbersConvert (followText s c long short).2 ↔ NumbersConvert s := by
  unfold followText
  split
  · rename_i h
    obtain ⟨t, rfl⟩ := List.head?_eq_some_iff.mp h
    exact (numbersConvert_cons hc t).symm
  · exact Iff.rfl

/-- What an operator goes on with starts no number. -/
theorem numbersConvert_munch (prev : UInt8) (s : Bytes) :
    NumbersConvert (munch prev s).2 ↔ NumbersConvert s := by
  have htail : ∀ {c : Char}, startsNothing (ch c) = true → s.head? = some (ch c) →
      (NumbersConvert s.tail ↔ NumbersConvert s) := by
    intro c hc h
    obtain ⟨t, rfl⟩ := List.head?_eq_some_iff.mp h
    exact (numbersConvert_cons hc t).symm
  unfold munch
  split
  case h_3 =>
    split
    · rename_i h
      exact (numbersConvert_followText _ (by decide) _ _).trans (htail (by decide) h)
    · exact Iff.rfl
  case h_14 =>
    split
    · rename_i h
      exact htail (by decide) h
    · exact numbersConvert_followText _ (by decide) _ _
  case h_18 => split <;> exact Iff.rfl
  case h_23 =>
    split
    · rename_i h
      exact (numbersConvert_followText _ (by decide) _ _).trans (htail (by decide) h)
    · split
      · rename_i h
        exact (numbersConvert_followText _ (by decide) _ _).trans (htail (by decide) h)
      · exact numbersConvert_followText _ (by decide) _ _
  all_goals first | exact Iff.rfl | exact numbersConvert_followText _ (by decide) _ _

/-- The numbers of a text are the one it starts with and those behind its first token. -/
theorem numbersConvert_firstToken (width : Int32) (c : UInt8) (s : Bytes) :
    NumbersConvert (c :: s) ↔
      StartConverts c s ∧ NumbersConvert (firstToken width c s).2.2 := by
  by_cases hword : isWordStart c = true
  · have hdigit : ¬isdigit c = true := fun h =>
      Bool.false_ne_true ((isWordStart_of_isdigit h).symm.trans hword)
    rw [firstToken_word hword, NumbersConvert, if_pos hword]
    exact ⟨fun h => ⟨fun hd => absurd hd hdigit, h⟩, fun h => h.2⟩
  by_cases hdigit : isdigit c = true
  · rw [firstToken_number hdigit, NumbersConvert, if_neg hword, if_pos hdigit]
  have hstart : StartConverts c s := fun hd => absurd hd hdigit
  by_cases hquote : c = ch '"'
  · rw [hquote, firstToken_string]
    refine iff_of_true (numbersConvert_quote s) ⟨fun hd => absurd hd (by decide), ?_⟩
    rcases stringEnd_head s with h | ⟨t, h⟩
    · rw [h]
      exact numbersConvert_nil
    · rw [h]
      exact numbersConvert_quote t
  · have hnothing : startsNothing c = true := by simp [startsNothing, hword, hdigit, hquote]
    rw [firstToken, if_neg hword, if_neg hdigit, if_neg hquote, numbersConvert_cons hnothing,
      numbersConvert_munch]
    exact ⟨fun h => ⟨hstart, h⟩, fun h => h.2⟩

/-- What a call does at a text that starts with a token or is empty. -/
def Consumes (stop : Bytes) (width : Int32) : Bytes → Outcome → Prop
  | [], o => o.1 = .ok .tEnd ∧ Before stop o.2 []
  | c :: s, o => o.1 ≠ .ok .tEnd ∧ (o.1.Returns ↔ StartConverts c s) ∧
      Before stop o.2 (firstToken width c s).2.2

theorem consumes_of_ok {stop : Bytes} {width : Int32} {c : UInt8} {s : Bytes} {token : Token}
    {lx : Lexer} (hdigit : isdigit c = false) (hend : token ≠ .tEnd)
    (h : Before stop lx (firstToken width c s).2.2) :
    Consumes stop width (c :: s) (.ok token, lx) := by
  refine ⟨fun heq => hend (Except.ok.inj heq), iff_of_true (Except.returns_ok _) ?_, h⟩
  intro hd
  rw [hdigit] at hd
  exact absurd hd Bool.false_ne_true

section Call

variable {stop : Bytes} {lx : Lexer} {s : Bytes}

theorem consumes_word (hstop : Stops stop) {c : UInt8} (h : Before stop lx (c :: s))
    (hc : isWordStart c = true) (width : Int32) :
    Consumes stop width (c :: s) (.ok lx.readIdentifier.1, lx.readIdentifier.2) := by
  have hdigit : isdigit c = false := isdigit_of_isWordStart hc
  refine consumes_of_ok hdigit ?_ ?_
  · intro heq
    have htext := hasText_wordToken (wordLoop { lx with text := [lx.last] }).text
    rw [show wordToken _ = Token.tEnd from heq] at htext
    revert htext
    decide
  · rw [firstToken_word hc]
    have hloop : Before stop (wordLoop { lx with text := [lx.last] }) _ :=
      Before.wordLoop hstop (h.congr rfl rfl)
    exact hloop.congr rfl rfl

theorem consumes_number (hstop : Stops stop) {c : UInt8} (h : Before stop lx (c :: s))
    (hc : isdigit c = true) (width : Int32) :
    Consumes stop width (c :: s) lx.readNumber := by
  have hnext := (view_before hstop).advance h (ne_eof_of_isdigit hc)
  obtain ⟨htext, hrest⟩ := (view_before hstop).numberLoop hnext [lx.last]
  have hread : lx.readNumber = evalNumber (c :: s.takeWhile isNumberChar)
      (numberLoop [lx.last] lx.advance).2 := by
    rw [readNumber_eq, htext, h.1]
    rfl
  rw [hread]
  refine ⟨fun heq => ?_, ?_, ?_⟩
  · rcases evalNumber_kind heq with hkind | hkind
    · exact Token.noConfusion hkind
    · exact Token.noConfusion hkind
  · rw [evalNumber_returns_iff, StartConverts]
    exact ⟨fun h _ => h, fun h => h hc⟩
  · rw [firstToken_number hc]
    obtain ⟨value, width', hstate⟩ := evalNumber_state (c :: s.takeWhile isNumberChar)
      (numberLoop [lx.last] lx.advance).2
    rw [hstate]
    exact hrest.congr rfl rfl

theorem consumes_string (hstop : Stops stop) (h : Before stop lx (ch '"' :: s)) (hs : EOF ∉ s)
    (width : Int32) :
    Consumes stop width (ch '"' :: s) (.ok lx.advance.readString.1, lx.advance.readString.2) := by
  have hnext := (view_before hstop).advance h (by decide)
  refine consumes_of_ok (by decide) ?_ ?_
  · exact stringLoop_ne_end _
  · rw [firstToken_string]
    exact Before.stringLoop hstop hs (hnext.congr rfl rfl)

theorem consumes_operator (hstop : Stops stop) {c : UInt8} (h : Before stop lx (c :: s))
    (hc : isOperatorStart c = true) (width : Int32) :
    Consumes stop width (c :: s)
      (.ok (readOperator c lx.advance).1, (readOperator c lx.advance).2) := by
  have hnext := (view_before hstop).advance h (ne_eof_of_isOperatorStart hc)
  obtain ⟨hkind, hrest⟩ := (view_before hstop).readOperator hnext c
  have hdigit : isdigit c = false := by
    simp only [isOperatorStart, Bool.and_eq_true, Bool.not_eq_true'] at hc
    exact hc.1.1.2
  refine consumes_of_ok hdigit ?_ ?_
  · rw [hkind]
    intro heq
    have hbare := isBare_munch c s
    rw [heq] at hbare
    exact Bool.false_ne_true hbare
  · rw [firstToken_operator hc]
    exact hrest

/-- A call at a text without comments consumes its first token. -/
theorem Scan.consumes {o : Outcome} (hscan : Scan lx o) (hstop : Stops stop)
    (hs : Uncommented s) (h : Before stop lx s) :
    Consumes stop lx.width (s.dropWhile isspace) o := by
  have hskip := (view_before hstop).skipSpaces h
  have hplain := hs.of_suffix (List.dropWhile_suffix (l := s) isspace)
  cases hrest : s.dropWhile isspace with
  | nil =>
    rw [hrest] at hskip
    cases hscan with
    | finish _ => exact ⟨rfl, hskip⟩
    | word hc => exact absurd hskip.1 (ne_eof_of_isWordStart hc)
    | number hc => exact absurd hskip.1 (ne_eof_of_isdigit hc)
    | operator hc _ => exact absurd hskip.1 (ne_eof_of_isOperatorStart hc)
    | string hc => exact absurd (hskip.1.symm.trans hc) (by decide)
    | locationEnd hc _ => exact absurd (hskip.1.symm.trans hc) (by decide)
    | location hc _ _ => exact absurd (hskip.1.symm.trans hc) (by decide)
    | lineComment hc _ _ => exact absurd (hskip.1.symm.trans hc) (by decide)
    | blockComment hc _ _ _ => exact absurd (hskip.1.symm.trans hc) (by decide)
  | cons c t =>
    rw [hrest] at hskip hplain
    obtain ⟨heof, hslash, hhash⟩ := hplain.head
    have hlast : lx.skipSpaces.last = c := hskip.1
    cases hscan with
    | finish hc => exact absurd (hlast.symm.trans hc) heof
    | word hc => exact consumes_word hstop hskip (hlast ▸ hc) lx.width
    | number hc => exact consumes_number hstop hskip (hlast ▸ hc) lx.width
    | string hc =>
      obtain rfl := hlast.symm.trans hc
      exact consumes_string hstop hskip (fun hmem => hplain.eof (List.mem_cons_of_mem _ hmem))
        lx.width
    | operator hc _ =>
      rw [hlast] at hc ⊢
      exact consumes_operator hstop hskip hc lx.width
    | locationEnd hc _ => exact absurd (hlast.symm.trans hc) hhash
    | location hc _ _ => exact absurd (hlast.symm.trans hc) hhash
    | lineComment hc _ _ => exact absurd (hlast.symm.trans hc) hslash
    | blockComment hc _ _ _ => exact absurd (hlast.symm.trans hc) hslash

/-- A call at a text without comments completes. -/
theorem exists_scan_before (hstop : Stops stop) (hs : Uncommented s) (h : Before stop lx s) :
    ∃ o, Scan lx o := by
  have hskip := (view_before hstop).skipSpaces h
  have hplain := hs.of_suffix (List.dropWhile_suffix (l := s) isspace)
  by_cases hend : lx.skipSpaces.last = EOF
  · exact ⟨_, .finish hend⟩
  obtain ⟨t, ht⟩ := hskip.exists_cons hend
  rw [ht] at hplain
  obtain ⟨_, hslash, hhash⟩ := hplain.head
  rcases exists_scan_or_skips lx with hscan | hline | hcomment
  · exact hscan
  · exact absurd hline hhash
  · exact absurd hcomment.1 hslash

end Call

/-! ## Runs of calls -/

section Run

variable {stop : Bytes} {lx lx' : Lexer} {s : Bytes}

/-- Calls that do not throw stay at the text, and leave its numbers. -/
theorem Calls.before {os : List Outcome} (hcalls : Calls lx os lx') (hstop : Stops stop)
    (hs : Uncommented s) (h : Before stop lx s) (hreturns : ∀ o ∈ os, o.1.Returns) :
    ∃ s', Uncommented s' ∧ Before stop lx' s' ∧ (NumbersConvert s' ↔ NumbersConvert s) := by
  induction hcalls generalizing s with
  | nil lx => exact ⟨s, hs, h, Iff.rfl⟩
  | @cons lx lx' o os hcall _ ih =>
    obtain ⟨ho, hos⟩ := List.forall_mem_cons.mp hreturns
    have hconsumes := (completes_iff_scan.mp hcall).consumes hstop hs h
    have hdrop := hs.of_suffix (List.dropWhile_suffix (l := s) isspace)
    rw [← numbersConvert_dropWhile s]
    cases hrest : s.dropWhile isspace with
    | nil =>
      rw [hrest] at hconsumes hdrop
      exact ih hdrop hconsumes.2 hos
    | cons c t =>
      rw [hrest] at hconsumes hdrop
      obtain ⟨_, hreturn, hnext⟩ := hconsumes
      have hplain := hdrop.of_suffix
        ((firstToken_suffix lx.width c t).trans (List.suffix_cons c t))
      obtain ⟨s', hs', h', hsame⟩ := ih hplain hnext hos
      refine ⟨s', hs', h', hsame.trans ?_⟩
      rw [numbersConvert_firstToken lx.width c t]
      exact ⟨fun hnumbers => ⟨hreturn.mp ho, hnumbers⟩, fun hnumbers => hnumbers.2⟩

/-- Where a call returns `T_END`, the text and the byte behind it are consumed and no more, and no
number of the text has thrown. -/
theorem Calls.consumed {os : List Outcome} {o : Outcome} (hcalls : Calls lx (os ++ [o]) lx')
    (hstop : Stops stop) (hs : Uncommented s) (h : Before stop lx s)
    (hreturns : ∀ o ∈ os, o.1.Returns) (hend : o.1 = .ok .tEnd) :
    lx'.is.rest = stop.tail ∧ NumbersConvert s := by
  obtain ⟨lx₁, hfirst, hlast, rfl⟩ := hcalls.snoc_inv
  obtain ⟨s', hs', h', hsame⟩ := hfirst.before hstop hs h hreturns
  have hconsumes := (completes_iff_scan.mp hlast).consumes hstop hs' h'
  rw [← hsame, ← numbersConvert_dropWhile]
  cases hrest : s'.dropWhile isspace with
  | nil =>
    rw [hrest] at hconsumes
    exact ⟨hconsumes.2.2, numbersConvert_nil⟩
  | cons c t =>
    rw [hrest] at hconsumes
    exact absurd hend hconsumes.1

/-- Where every number converts, calls come to the end of the text.  The induction is on its
length: a call consumes at least the first character of a token. -/
theorem exists_calls_end (hstop : Stops stop) (hs : Uncommented s) (h : Before stop lx s)
    (hnumbers : NumbersConvert s) :
    ∃ os o lx', Calls lx (os ++ [o]) lx' ∧ (∀ o ∈ os, o.1.Returns) ∧ o.1 = .ok .tEnd := by
  induction hn : s.length using Nat.strong_induction_on generalizing lx s with
  | _ n ih =>
    obtain ⟨o, ho⟩ := exists_scan_before hstop hs h
    have hcall := completes_iff_scan.mpr ho
    have hconsumes := ho.consumes hstop hs h
    have hdrop := hs.of_suffix (List.dropWhile_suffix (l := s) isspace)
    have hlength := (List.dropWhile_suffix (l := s) isspace).length_le
    rw [← numbersConvert_dropWhile] at hnumbers
    cases hrest : s.dropWhile isspace with
    | nil =>
      rw [hrest] at hconsumes
      exact ⟨[], o, o.2, .cons hcall (.nil _), fun o ho => absurd ho List.not_mem_nil,
        hconsumes.1⟩
    | cons c t =>
      rw [hrest] at hconsumes hdrop hnumbers hlength
      obtain ⟨_, hreturn, hnext⟩ := hconsumes
      obtain ⟨hstart, hlater⟩ := (numbersConvert_firstToken lx.width c t).mp hnumbers
      have hsuffix := firstToken_suffix lx.width c t
      have hshort : (firstToken lx.width c t).2.2.length < n := by
        have hle := hsuffix.length_le
        rw [List.length_cons] at hlength
        omega
      obtain ⟨os, o', lx', hcalls, hreturns, hend⟩ := ih _ hshort
        (hdrop.of_suffix (hsuffix.trans (List.suffix_cons c t))) hnext hlater rfl
      exact ⟨o :: os, o', lx', .cons hcall hcalls,
        List.forall_mem_cons.mpr ⟨hreturn.mpr hstart, hreturns⟩, hend⟩

end Run

/-! ## The byte that reads as the end -/

theorem stops_dropWhile (input : Bytes) : Stops (input.dropWhile (· != EOF)) := by
  have hhead := List.head?_dropWhile_not (· != EOF) input
  unfold Stops
  cases h : input.dropWhile (· != EOF) with
  | nil => rfl
  | cons c s =>
    rw [h] at hhead
    simpa using hhead

theorem tail_dropWhile_eq_nil_iff (input : Bytes) :
    (input.dropWhile (· != EOF)).tail = [] ↔ EOF ∉ input.dropLast := by
  induction input with
  | nil => simp
  | cons c s ih =>
    by_cases hc : c = EOF
    · rw [List.dropWhile_cons_of_neg (by simp [hc]), List.tail_cons]
      cases s with
      | nil => simp
      | cons d s => simp [hc]
    · rw [List.dropWhile_cons_of_pos (by simpa using hc), ih]
      cases s with
      | nil => simp
      | cons d s => simp [Ne.symm hc]

theorem uncommented_takeWhile {input : Bytes} (hslash : ch '/' ∉ input) (hhash : ch '#' ∉ input) :
    Uncommented (input.takeWhile (· != EOF)) where
  eof hmem := absurd (List.mem_takeWhile_imp hmem) (by decide)
  slash hmem := hslash ((List.takeWhile_prefix _).subset hmem)
  hash hmem := hhash ((List.takeWhile_prefix _).subset hmem)

theorem before_start (input : Bytes) :
    Before (input.dropWhile (· != EOF)) (start input)
      (ch ' ' :: input.takeWhile (· != EOF)) := by
  refine ⟨rfl, ?_⟩
  rw [List.takeWhile_append_dropWhile]
  rfl

/-- Without comments and lines every byte is consumed when `T_END` is returned, if and only if
no byte in front of the last one reads as `EOF`, or a number in front of the first such byte
throws, so that the end is not reached. -/
theorem consumesAll_iff {input : Bytes} (hslash : ch '/' ∉ input) (hhash : ch '#' ∉ input) :
    ConsumesAll input ↔
      EOF ∉ input.dropLast ∨ ¬NumbersConvert (input.takeWhile (· != EOF)) := by
  have hstop := stops_dropWhile input
  have hbefore := before_start input
  have htext : Uncommented (ch ' ' :: input.takeWhile (· != EOF)) := by
    obtain ⟨heof, hslash, hhash⟩ := uncommented_takeWhile hslash hhash
    exact ⟨by simp [heof, show EOF ≠ ch ' ' by decide],
      by simp [hslash, show ch '/' ≠ ch ' ' by decide],
      by simp [hhash, show ch '#' ≠ ch ' ' by decide]⟩
  rw [← tail_dropWhile_eq_nil_iff, ← numbersConvert_cons (c := ch ' ') (by decide)]
  constructor
  · intro hall
    by_cases hnumbers : NumbersConvert (ch ' ' :: input.takeWhile (· != EOF))
    · left
      obtain ⟨os, o, lx, hcalls, hreturns, hend⟩ :=
        exists_calls_end hstop htext hbefore hnumbers
      rw [← (hcalls.consumed hstop htext hbefore hreturns hend).1]
      exact hall os o lx hcalls hreturns hend
    · exact .inr hnumbers
  · intro hcondition os o lx hcalls hreturns hend
    obtain ⟨hrest, hnumbers⟩ := hcalls.consumed hstop htext hbefore hreturns hend
    rw [hrest]
    exact hcondition.resolve_right fun hnot => hnot hnumbers

theorem consumesAll_iff_last :
    ConsumesAll (str "a1 \"b" ++ [255]) ↔
      EOF ∉ (str "a1 \"b" ++ [255]).dropLast ∨
        ¬NumbersConvert ((str "a1 \"b" ++ [255]).takeWhile (· != EOF)) :=
  consumesAll_iff (by decide) (by decide)

/-- At the byte 255 the first call returns `T_END`, and `a` is left in the stream. -/
theorem not_consumesAll_byte :
    ch '/' ∉ [255, ch 'a'] ∧ ch '#' ∉ [255, ch 'a'] ∧ ¬ConsumesAll [255, ch 'a'] := by
  refine ⟨by decide, by decide, fun hall => ?_⟩
  have hend : (start [255, ch 'a']).skipSpaces.last = EOF := by
    exact ((view_before (stops_dropWhile _)).skipSpaces (before_start [255, ch 'a'])).1
  have hcall : Completes (start [255, ch 'a']) (.ok .tEnd, (start [255, ch 'a']).skipSpaces) :=
    completes_of_scan (.finish hend)
  have hrest := hall [] _ _ (.cons hcall (.nil _)) (fun o ho => absurd ho List.not_mem_nil) rfl
  have hleft : (start [255, ch 'a']).skipSpaces.is.rest = [ch 'a'] :=
    ((view_before (stops_dropWhile _)).skipSpaces (before_start [255, ch 'a'])).2
  rw [hleft] at hrest
  cases hrest

end Lexer

end P4LS
