import P4LS.Lexer.Tokens

/-!
# Termination

Every loop of the lexer but one leaves at the end of the input.  The loop over a
block comment waits for NUL, which `advance` never produces once the input has
ended, so a comment that is not closed is never left.  `commentsClosed` reads a
text the way the lexer skips through it and asks that every block comment it
meets is closed; the lexer terminates on exactly these texts.
-/

namespace P4LS

open Bytes

namespace Lexer

/-! ## Texts whose comments are closed -/

/-- Every block comment the lexer comes to is closed.  A closing quote is never
consumed and opens the next string, so nothing behind the first quote is a comment. -/
def commentsClosed : Bytes → Bool
  | [] => true
  | c :: s =>
    if c = ch '"' then true
    else if c = ch '#' then commentsClosed (afterLine s.tail)
    else if c = ch '/' ∧ s.head? = some (ch '/') then commentsClosed (afterLine s.tail)
    else if c = ch '/' ∧ s.head? = some (ch '*') then
      match _h : blockEnd false s.tail with
      | none => false
      | some t => commentsClosed t
    else commentsClosed s
termination_by s => s.length
decreasing_by
  all_goals have htail := (List.tail_suffix s).length_le
  · have := (afterLine_suffix s.tail).length_le
    rw [List.length_cons]
    omega
  · have := (afterLine_suffix s.tail).length_le
    rw [List.length_cons]
    omega
  · have := (blockEnd_suffix _h).length_le
    rw [List.length_cons]
    omega
  · exact Nat.lt_succ_self _

/-- The characters at which the lexer skips or collects nothing behind them. -/
def isPlain (c : UInt8) : Bool := c != ch '"' && c != ch '#' && c != ch '/'

/-- A class is plain if it leaves out the three characters that are not. -/
theorem isPlain_of_class {p : UInt8 → Bool}
    (hp : p (ch '"') = false ∧ p (ch '#') = false ∧ p (ch '/') = false) (c : UInt8)
    (h : p c = true) : isPlain c = true := by
  obtain ⟨hquote, hhash, hslash⟩ := hp
  simp [isPlain, ne_of_class h hquote, ne_of_class h hhash, ne_of_class h hslash]

theorem commentsClosed_nil : commentsClosed [] = true := by rw [commentsClosed]

theorem commentsClosed_quote (s : Bytes) : commentsClosed (ch '"' :: s) = true := by
  rw [commentsClosed, if_pos rfl]

theorem commentsClosed_plain {c : UInt8} (h : isPlain c = true) (s : Bytes) :
    commentsClosed (c :: s) = commentsClosed s := by
  simp only [isPlain, Bool.and_eq_true, bne_iff_ne, ne_eq] at h
  rw [commentsClosed, if_neg h.1.1, if_neg h.1.2, if_neg (fun hs => h.2 hs.1),
    if_neg (fun hs => h.2 hs.1)]

theorem commentsClosed_location (s : Bytes) :
    commentsClosed (ch '#' :: s) = commentsClosed (afterLine s.tail) := by
  rw [commentsClosed, if_neg (by decide), if_pos rfl]

theorem commentsClosed_line (s : Bytes) :
    commentsClosed (ch '/' :: ch '/' :: s) = commentsClosed (afterLine s) := by
  rw [commentsClosed, if_neg (by decide), if_neg (by decide), if_pos ⟨rfl, rfl⟩, List.tail_cons]

theorem commentsClosed_block (s : Bytes) :
    commentsClosed (ch '/' :: ch '*' :: s) = (blockEnd false s).elim false commentsClosed := by
  rw [commentsClosed, if_neg (by decide), if_neg (by decide),
    if_neg (by simp [show ch '*' ≠ ch '/' by decide]), if_pos ⟨rfl, rfl⟩]
  split
  · rename_i h
    rw [List.tail_cons] at h
    rw [h]
    rfl
  · rename_i t h
    rw [List.tail_cons] at h
    rw [h]
    rfl

theorem commentsClosed_slash {s : Bytes} (hline : s.head? ≠ some (ch '/'))
    (hblock : s.head? ≠ some (ch '*')) : commentsClosed (ch '/' :: s) = commentsClosed s := by
  rw [commentsClosed, if_neg (by decide), if_neg (by decide), if_neg (fun h => hline h.2),
    if_neg (fun h => hblock h.2)]

theorem commentsClosed_dropWhile {p : UInt8 → Bool} (hp : ∀ c, p c = true → isPlain c = true)
    (s : Bytes) : commentsClosed (s.dropWhile p) = commentsClosed s := by
  induction s with
  | nil => rfl
  | cons c s ih =>
    by_cases h : p c = true
    · rw [List.dropWhile_cons_of_pos h, ih, commentsClosed_plain (hp c h)]
    · rw [List.dropWhile_cons_of_neg h]

theorem Skips.commentsClosed_eq {p : UInt8 → Bool} (hp : ∀ c, p c = true → isPlain c = true)
    {lx lx' : Lexer} (h : Skips p lx lx') (hc : lx.Clean) :
    commentsClosed lx'.pending = commentsClosed lx.pending := by
  induction h with
  | refl lx => rfl
  | @step lx lx' h _ ih =>
    rw [ih hc.advance, pending_advance hc]
    cases hs : lx.pending with
    | nil => rfl
    | cons c s =>
      rw [last_eq_of_pending hs] at h
      rw [List.tail_cons, commentsClosed_plain (hp c h)]

/-! ## A call keeps them closed and makes progress -/

/-- Behind a first character `c` a call has `lx.skipSpaces.advance.pending` to read. -/
theorem commentsClosed_first {lx : Lexer} (hc : lx.Clean) {c : UInt8}
    (h : lx.skipSpaces.last = c) (hne : c ≠ EOF) :
    commentsClosed lx.pending = commentsClosed (c :: lx.skipSpaces.advance.pending) := by
  rw [← h, ← pending_first hc (by rw [h]; exact hne),
    commentsClosed_dropWhile (isPlain_of_class (by decide))]

/-- A call that completes leaves a text closed if and only if it finds it closed. -/
theorem Scan.commentsClosed_eq {lx : Lexer} {o : Outcome} (h : Scan lx o) (hc : lx.Clean) :
    commentsClosed o.2.pending = commentsClosed lx.pending ∧ o.2.Clean := by
  induction h with
  | @finish lx h =>
    refine ⟨?_, hc.skips (skips_skipSpaces lx)⟩
    rw [pending_skipSpaces hc, commentsClosed_dropWhile (isPlain_of_class (by decide))]
  | @word lx h =>
    have hclean := hc.skips (skips_skipSpaces lx)
    have hne := ne_eof_of_isWordStart h
    refine ⟨?_, hclean.readIdentifier⟩
    rw [(readIdentifier_pending hclean hne).1, ← pending_advance hclean,
      commentsClosed_dropWhile (isPlain_of_class (by decide)), commentsClosed_first hc rfl hne,
      commentsClosed_plain (isPlain_of_class (by decide) _ h)]
  | @number lx h =>
    obtain ⟨value, width, lx', hskips, hstate⟩ := readNumber_state lx.skipSpaces
    have hsame : commentsClosed lx'.pending = commentsClosed lx.skipSpaces.advance.pending :=
      hskips.commentsClosed_eq (isPlain_of_class (by decide)) hc.first
    rw [hstate]
    refine ⟨?_, (hc.first.skips hskips : lx'.Clean)⟩
    rw [commentsClosed_first hc rfl (ne_eof_of_isdigit h),
      commentsClosed_plain (isPlain_of_class (by decide) _ h), ← hsame]
    rfl
  | @string lx h =>
    refine ⟨?_, hc.first.readString⟩
    rw [readString_pending hc.first, commentsClosed_first hc h (by decide),
      commentsClosed_quote]
    rcases stringEnd_head lx.skipSpaces.advance.pending with hs | ⟨t, hs⟩
    · rw [hs, commentsClosed_nil]
    · rw [hs, commentsClosed_quote]
  | @locationEnd lx h hend =>
    refine ⟨?_, hc.first.readLocation⟩
    rw [pending_readLocation hc.first, commentsClosed_first hc h (by decide),
      commentsClosed_location]
  | @location lx o h hend _ ih =>
    refine ⟨(ih hc.first.readLocation).1.trans ?_, (ih hc.first.readLocation).2⟩
    rw [pending_readLocation hc.first, commentsClosed_first hc h (by decide),
      commentsClosed_location]
  | @lineComment lx o h hl _ ih =>
    refine ⟨(ih hc.first.readLocation).1.trans ?_, (ih hc.first.readLocation).2⟩
    rw [pending_readLocation hc.first, commentsClosed_first hc h (by decide),
      pending_second hl (by decide), commentsClosed_line, List.tail_cons]
  | @blockComment lx lx' o h hl hblock _ ih =>
    obtain ⟨hend, hclean⟩ := hblock.blockEnd_eq hc.first
    refine ⟨(ih hclean.advance).1.trans ?_, (ih hclean.advance).2⟩
    rw [pending_advance hclean, commentsClosed_first hc h (by decide),
      pending_second hl (by decide), commentsClosed_block, hend]
    rfl
  | @operator lx h hcomment =>
    have hskips := skips_readOperator lx.skipSpaces.last lx.skipSpaces.advance
    refine ⟨?_, hc.first.skips hskips⟩
    rw [hskips.commentsClosed_eq (isPlain_of_class (by decide)) hc.first]
    have hne : lx.skipSpaces.last ≠ EOF := ne_eof_of_isOperatorStart h
    rw [commentsClosed_first hc rfl hne]
    by_cases hslash : lx.skipSpaces.last = ch '/'
    · rw [hslash, commentsClosed_slash]
      · intro hd
        obtain ⟨t, ht⟩ := List.head?_eq_some_iff.mp hd
        exact hcomment ⟨hslash, .inl (last_eq_of_pending ht)⟩
      · intro hd
        obtain ⟨t, ht⟩ := List.head?_eq_some_iff.mp hd
        exact hcomment ⟨hslash, .inr (last_eq_of_pending ht)⟩
    · rw [commentsClosed_plain]
      simp only [isOperatorStart, Bool.and_eq_true, bne_iff_ne, ne_eq] at h
      simp [isPlain, h.1.2, h.2, hslash]

/-- Only the end of the input gives `T_END`, and every other call consumes something
behind the white space it skips. -/
theorem Scan.progress {lx : Lexer} {o : Outcome} (h : Scan lx o) (hc : lx.Clean) :
    (o.1 = .ok .tEnd ∧ o.2.pending = []) ∨
      (o.1 ≠ .ok .tEnd ∧ o.2.pending.length < (lx.pending.dropWhile isspace).length) := by
  obtain ⟨s, hs, hshown⟩ := h.shows hc
  cases s with
  | nil => exact .inl ⟨congrArg Observed.kind hshown.1, hshown.2.2⟩
  | cons c s =>
    obtain ⟨hseen, _, hpending⟩ := hshown
    refine .inr ⟨fun hend => ?_, ?_⟩
    · have hbare : observe o = .bare .tEnd := by
        rw [← Prod.eta o, hend]
        exact observe_bare (by decide) Token.noConfusion _
      exact firstToken_ne_end lx.width c s (hseen.symm.trans hbare)
    · rw [← tokenStart_dropWhile] at hs
      have hstart := (tokenStart_suffix hs).length_le
      have hrest := (firstToken_suffix lx.width c s).length_le
      rw [List.length_cons] at hstart
      rw [hpending]
      omega

/-! ## A call completes on such a text -/

theorem tokenStart_of_commentsClosed {s : Bytes} (h : commentsClosed s = true) :
    ∃ t, tokenStart s = some t := by
  fun_induction tokenStart s with
  | case1 => exact ⟨[], rfl⟩
  | case2 c s hspace ih =>
    rw [commentsClosed_plain (isPlain_of_class (by decide) _ hspace)] at h
    exact ih h
  | case3 s _ ih =>
    rw [commentsClosed_location] at h
    exact ih h
  | case4 c s _ _ hline ih =>
    obtain ⟨rfl, hs⟩ := hline
    obtain ⟨t, rfl⟩ := List.head?_eq_some_iff.mp hs
    rw [commentsClosed_line] at h
    exact ih h
  | case5 c s _ _ _ hblock hnone =>
    obtain ⟨rfl, hs⟩ := hblock
    obtain ⟨t, rfl⟩ := List.head?_eq_some_iff.mp hs
    rw [List.tail_cons] at hnone
    rw [commentsClosed_block, hnone] at h
    cases h
  | case6 c s _ _ _ hblock t' ht ih =>
    obtain ⟨rfl, hs⟩ := hblock
    obtain ⟨t, rfl⟩ := List.head?_eq_some_iff.mp hs
    rw [List.tail_cons] at ht
    rw [commentsClosed_block, ht] at h
    exact ih h
  | case7 c s => exact ⟨c :: s, rfl⟩

/-- Where every comment is closed a call completes. -/
theorem exists_scan {lx : Lexer} (hc : lx.Clean) (hclosed : commentsClosed lx.pending = true) :
    ∃ o, Scan lx o := by
  obtain ⟨s, hs⟩ := tokenStart_of_commentsClosed hclosed
  exact exists_scan_of_tokenStart hc hs

/-! ## Runs of calls -/

theorem Calls.commentsClosed_eq {lx lx' : Lexer} {os : List Outcome} (h : Calls lx os lx')
    (hc : lx.Clean) : commentsClosed lx'.pending = commentsClosed lx.pending ∧ lx'.Clean := by
  induction h with
  | nil lx => exact ⟨rfl, hc⟩
  | cons hcall _ ih =>
    obtain ⟨heq, hclean⟩ := (completes_iff_scan.mp hcall).commentsClosed_eq hc
    exact ⟨(ih hclean).1.trans heq, (ih hclean).2⟩

/-- Once the input has ended every call returns `T_END`. -/
theorem Calls.all_end {lx lx' : Lexer} {os : List Outcome} (h : Calls lx os lx')
    (hc : lx.Clean) (hnil : lx.pending = []) :
    lx'.pending = [] ∧ ∀ o ∈ os, o.1 = .ok .tEnd := by
  induction h with
  | nil lx => exact ⟨hnil, fun o ho => absurd ho List.not_mem_nil⟩
  | @cons lx lx' o os hcall _ ih =>
    have hscan := completes_iff_scan.mp hcall
    rcases hscan.progress hc with ⟨hend, hnil'⟩ | ⟨_, hlt⟩
    · obtain ⟨ihnil, ihend⟩ := ih (hscan.commentsClosed_eq hc).2 hnil'
      exact ⟨ihnil, List.forall_mem_cons.mpr ⟨hend, ihend⟩⟩
    · rw [hnil] at hlt
      exact absurd hlt (Nat.not_lt_zero _)

/-- Calls that do not return `T_END` are paid for by the text. -/
theorem Calls.length_le {lx lx' : Lexer} {os : List Outcome} (h : Calls lx os lx')
    (hc : lx.Clean) (hend : ∀ o ∈ os, o.1 ≠ .ok .tEnd) :
    (lx'.pending.dropWhile isspace).length + os.length ≤
      (lx.pending.dropWhile isspace).length := by
  induction h with
  | nil lx => exact Nat.le_refl _
  | @cons lx lx' o os hcall _ ih =>
    obtain ⟨ho, hos⟩ := List.forall_mem_cons.mp hend
    have hscan := completes_iff_scan.mp hcall
    have hlt := ((hscan.progress hc).resolve_left fun h => ho h.1).2
    have hrest := ih (hscan.commentsClosed_eq hc).2 hos
    have hdrop := (List.dropWhile_suffix (l := o.2.pending) isspace).length_le
    rw [List.length_cons]
    omega

/-- A run in which some call returned `T_END` has read the whole text. -/
theorem Calls.pending_nil_of_end {lx lx' : Lexer} {os : List Outcome} (h : Calls lx os lx')
    (hc : lx.Clean) (hend : ∃ o ∈ os, o.1 = .ok .tEnd) : lx'.pending = [] := by
  induction h with
  | nil lx =>
    obtain ⟨o, ho, _⟩ := hend
    cases ho
  | @cons lx lx' o os hcall hrest ih =>
    have hscan := completes_iff_scan.mp hcall
    have hclean := (hscan.commentsClosed_eq hc).2
    rcases hscan.progress hc with ⟨_, hnil⟩ | ⟨hne, _⟩
    · exact (hrest.all_end hclean hnil).1
    · refine ih hclean ?_
      obtain ⟨o', ho', he⟩ := hend
      rcases List.mem_cons.mp ho' with rfl | hmem
      · exact absurd he hne
      · exact ⟨o', hmem, he⟩

theorem exists_calls {lx : Lexer}
    (hcompletes : ∀ os lx', Calls lx os lx' → ∃ o, Completes lx' o) (k : Nat) :
    ∃ os lx', Calls lx os lx' ∧ os.length = k := by
  induction k with
  | zero => exact ⟨[], lx, .nil lx, rfl⟩
  | succ k ih =>
    obtain ⟨os, lx', hcalls, hlen⟩ := ih
    obtain ⟨o, ho⟩ := hcompletes os lx' hcalls
    exact ⟨os ++ [o], o.2, hcalls.append (.cons ho (.nil _)), by simp [hlen]⟩

/-- The lexer terminates on an input: every call completes, a call among the first
`length + 1` returns `T_END`, and so does every call after it. -/
structure Terminates (input : Bytes) : Prop where
  completes : ∀ os lx, Calls (start input) os lx → ∃ o, Completes lx o
  reachesEnd : ∀ os lx, Calls (start input) os lx → os.length = input.length + 1 →
    ∃ o ∈ os, o.1 = .ok .tEnd
  staysAtEnd : ∀ os lx o, Calls (start input) os lx → (∃ o ∈ os, o.1 = .ok .tEnd) →
    Completes lx o → o.1 = .ok .tEnd

theorem start_pending_length (input : Bytes) :
    ((start input).pending.dropWhile isspace).length ≤ input.length := by
  rw [pending_start, List.dropWhile_cons_of_pos (by decide)]
  exact (List.dropWhile_suffix _).length_le

theorem reachesEnd {input : Bytes} (hascii : Ascii input) {os : List Outcome} {lx : Lexer}
    (h : Calls (start input) os lx) (hlen : os.length = input.length + 1) :
    ∃ o ∈ os, o.1 = .ok .tEnd := by
  by_contra hnone
  have hend : ∀ o ∈ os, o.1 ≠ .ok .tEnd := fun o ho he => hnone ⟨o, ho, he⟩
  have hle := h.length_le (clean_start hascii) hend
  have hstart := start_pending_length input
  omega

theorem commentsClosed_start (input : Bytes) :
    commentsClosed (start input).pending = commentsClosed input := by
  rw [pending_start, commentsClosed_plain (by decide)]

theorem commentsClosed_of_completes {input : Bytes} (hascii : Ascii input)
    (h : ∀ os lx, Calls (start input) os lx → ∃ o, Completes lx o) :
    commentsClosed input = true := by
  have hc := clean_start hascii
  obtain ⟨os, lx, hcalls, hlen⟩ := exists_calls h (input.length + 1)
  have hnil := hcalls.pending_nil_of_end hc (reachesEnd hascii hcalls hlen)
  rw [← commentsClosed_start, ← (hcalls.commentsClosed_eq hc).1, hnil, commentsClosed_nil]

/-- The lexer terminates on exactly the texts in which every block comment it comes to
is closed. -/
theorem terminates_iff_commentsClosed (input : Bytes) (hascii : Ascii input) :
    Terminates input ↔ commentsClosed input = true := by
  have hc := clean_start hascii
  constructor
  · intro h
    exact commentsClosed_of_completes hascii h.completes
  · intro hclosed
    refine ⟨fun os lx h => ?_, fun os lx h => reachesEnd hascii h, fun os lx o h hend ho => ?_⟩
    · obtain ⟨heq, hclean⟩ := h.commentsClosed_eq hc
      rw [commentsClosed_start, hclosed] at heq
      obtain ⟨o, ho⟩ := exists_scan hclean heq
      exact ⟨o, completes_iff_scan.mpr ho⟩
    · have hclean := (h.commentsClosed_eq hc).2
      have hlast : Calls lx [o] o.2 := .cons ho (.nil _)
      exact (hlast.all_end hclean (h.pending_nil_of_end hc hend)).2 o List.mem_cons_self

theorem terminates_iff_commentsClosed_comment :
    Terminates (str "x /* y */ z // w") ↔ commentsClosed (str "x /* y */ z // w") = true :=
  terminates_iff_commentsClosed (str "x /* y */ z // w") (by decide)

/-- The loop over a comment that is not closed never leaves. -/
theorem not_terminates_open_comment : ¬Terminates (str "/*") := by
  intro h
  have hclosed := @commentsClosed_of_completes (str "/*") (by decide)
    h.completes
  revert hclosed
  decide +kernel

end Lexer

end P4LS
