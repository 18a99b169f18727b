import P4LS.Lexer.Termination
import Mathlib.Data.List.Induction

/-!
# Rows and columns

`Exact` says that the row and the column of a lexer are the position of its
lookahead in the text consumed so far.  `advance` keeps the position exact.
`read_identifier`, `read_string` and the skipping of lines extract characters
without `advance`, and `tracked` says of a text when that goes unnoticed.
-/

namespace P4LS

open Bytes

namespace Lexer

/-! ## The position of the lookahead -/

/-- The characters extracted from the input so far, the lookahead included. -/
def consumed (input : Bytes) (lx : Lexer) : Bytes :=
  input.take (input.length - lx.is.rest.length)

/-- The number of characters behind the last line end. -/
def sinceNewline (s : Bytes) : Nat := (s.reverse.takeWhile (· != ch '\n')).length

/-- Reaching the end of the input counts once. -/
def endCount (lx : Lexer) : Nat := if lx.last = EOF then 1 else 0

/-- The row and the column are the position of the lookahead. -/
def Exact (input : Bytes) (lx : Lexer) : Prop :=
  lx.row = 1 + (consumed input lx).count (ch '\n') ∧
    lx.col = sinceNewline (consumed input lx) + lx.endCount

theorem sinceNewline_newline (s : Bytes) : sinceNewline (s ++ [ch '\n']) = 0 := by
  simp [sinceNewline]

theorem sinceNewline_append {w : Bytes} (h : ch '\n' ∉ w) (s : Bytes) :
    sinceNewline (s ++ w) = sinceNewline s + w.length := by
  have hw : ∀ c ∈ w.reverse, (c != ch '\n') = true := by
    intro c hc
    rw [bne_iff_ne]
    intro hnl
    rw [hnl] at hc
    exact h (List.mem_reverse.mp hc)
  rw [sinceNewline, List.reverse_append, List.takeWhile_append_of_pos hw, List.length_append,
    List.length_reverse, Nat.add_comm]
  rfl

theorem consumed_append {input w : Bytes} {lx lx' : Lexer} (hs : lx.is.rest <:+ input)
    (hw : lx.is.rest = w ++ lx'.is.rest) : consumed input lx' = consumed input lx ++ w := by
  obtain ⟨pre, rfl⟩ := hs
  rw [consumed, consumed, hw]
  have hlong : (pre ++ (w ++ lx'.is.rest)).length - lx'.is.rest.length = (pre ++ w).length := by
    simp only [List.length_append]
    omega
  have hshort : (pre ++ (w ++ lx'.is.rest)).length - (w ++ lx'.is.rest).length =
      pre.length := by
    simp only [List.length_append]
    omega
  rw [hlong, hshort, List.take_left, ← List.append_assoc, List.take_left]

/-- What it takes for characters extracted without a new row to be tracked. -/
theorem exact_iff_of_append {input w : Bytes} {lx lx' : Lexer} (hs : lx.is.rest <:+ input)
    (h : Exact input lx) (hw : lx.is.rest = w ++ lx'.is.rest) (hrow : lx'.row = lx.row) :
    Exact input lx' ↔
      ch '\n' ∉ w ∧ lx'.col + lx.endCount = lx.col + w.length + lx'.endCount := by
  obtain ⟨hr, hcol⟩ := h
  rw [Exact, consumed_append hs hw, hrow, hr, List.count_append]
  constructor
  · intro hnew
    obtain ⟨hcount, hcol'⟩ := hnew
    have hnone : ch '\n' ∉ w := List.count_eq_zero.mp (by omega)
    rw [sinceNewline_append hnone] at hcol'
    exact ⟨hnone, by omega⟩
  · intro hnew
    obtain ⟨hnone, hcol'⟩ := hnew
    rw [List.count_eq_zero.mpr hnone, sinceNewline_append hnone]
    exact ⟨rfl, by omega⟩

/-- A line end that is extracted starts a new row. -/
theorem exact_of_newline {input w : Bytes} {lx lx' : Lexer} (hs : lx.is.rest <:+ input)
    (h : Exact input lx) (hnone : ch '\n' ∉ w)
    (hw : lx.is.rest = w ++ ch '\n' :: lx'.is.rest) (hlast : lx'.last ≠ EOF)
    (hrow : lx'.row = lx.row + 1) (hcol : lx'.col = 0) : Exact input lx' := by
  have happ : lx.is.rest = (w ++ [ch '\n']) ++ lx'.is.rest := by simp [hw]
  rw [Exact, consumed_append hs happ, ← List.append_assoc, sinceNewline_newline, endCount,
    if_neg hlast, hrow, hcol, h.1, List.count_append, List.count_append,
    List.count_eq_zero.mpr hnone]
  exact ⟨rfl, rfl⟩

theorem exact_start (input : Bytes) : Exact input (start input) := by
  have hnil : consumed input (start input) = [] := by simp [consumed, start, Istream.ofBytes]
  rw [Exact, hnil]
  exact ⟨rfl, rfl⟩

/-! ## Characters read by `advance` -/

/-- One extraction that counts one column: exact unless it reads a line end. -/
theorem exact_getLast_iff {input : Bytes} {lx : Lexer} (lx' : Lexer) (hs : lx.is.rest <:+ input)
    (h : Exact input lx) (hlast : lx.last ≠ EOF) (his : lx'.is = lx.getLast.is)
    (hl : lx'.last = lx.getLast.last) (hc : lx.Clean) (hrow : lx'.row = lx.row)
    (hcol : lx'.col = lx.col + 1) : Exact input lx' ↔ lx.getLast.last ≠ ch '\n' := by
  rcases getLast_cases lx hlast with ⟨c, s, his', hc', hs', _⟩ | ⟨hl', hr, _⟩
  · have hne : c ≠ EOF := by
      intro heof
      exact hc (by simp [his', heof])
    rw [exact_iff_of_append (w := [c]) hs h (by simp [his', his, hs']) hrow, hcol, endCount,
      endCount, hl, hc', if_neg hlast, if_neg hne]
    simp [eq_comm]
  · rw [exact_iff_of_append (w := []) hs h (by rw [his, hr]; rfl) hrow, hcol, endCount,
      endCount, hl, hl', if_neg hlast, if_pos rfl]
    simp [show EOF ≠ ch '\n' by decide]

theorem Exact.advance {input : Bytes} {lx : Lexer} (hc : lx.Clean) (hs : lx.is.rest <:+ input)
    (h : Exact input lx) : Exact input lx.advance := by
  by_cases hlast : lx.last = EOF
  · rw [advance_of_eof hlast]
    exact h
  rw [Lexer.advance, if_neg hlast]
  by_cases hnl : lx.getLast.last = ch '\n'
  · rw [if_pos hnl]
    rcases getLast_cases lx hlast with ⟨c, s, his', hc', hs', _⟩ | ⟨hl', _, _⟩
    · refine exact_of_newline (w := []) hs h List.not_mem_nil ?_ ?_ rfl rfl
      · rw [← hnl, hc']
        simp [his', hs']
      · simp only [hnl]
        decide
    · rw [hl'] at hnl
      exact absurd hnl (by decide)
  · rw [if_neg hnl]
    exact (exact_getLast_iff { lx.getLast with col := lx.col + 1 } hs h hlast rfl rfl
      hc rfl rfl).mpr hnl

theorem Skips.exact {p : UInt8 → Bool} {input : Bytes} {lx lx' : Lexer} (hs : Skips p lx lx')
    (hc : lx.Clean) (hsuf : lx.is.rest <:+ input) (h : Exact input lx) : Exact input lx' := by
  induction hs with
  | refl _ => exact h
  | @step lx _ _ _ ih => exact ih hc.advance ((advance_suffix lx).trans hsuf) (h.advance hc hsuf)

/-! ## Words and strings -/

/-- `read_identifier` counts a column for the character behind the word, whatever it is. -/
theorem wordLoop_exact_iff {input : Bytes} (lx : Lexer) (hc : lx.Clean)
    (hs : lx.is.rest <:+ input) (h : Exact input lx) (hlast : lx.last ≠ EOF) :
    Exact input { lx.wordLoop with col := lx.wordLoop.col + 1 } ↔
      lx.wordLoop.last ≠ ch '\n' := by
  fun_induction wordLoop lx with
  | case1 lx hword ih =>
    have hsuf := (getLast_suffix lx).trans hs
    refine ih hc.getLast hsuf ?_ (ne_eof_of_isWordChar hword)
    refine (exact_getLast_iff { lx.getLast with col := lx.col + 1 } hs h hlast rfl rfl
      hc rfl rfl).mpr fun hnl => ?_
    rw [hnl] at hword
    revert hword
    decide
  | case2 lx hword =>
    exact exact_getLast_iff { lx.getLast with col := lx.col + 1 } hs h hlast rfl rfl hc
      rfl rfl

theorem readIdentifier_exact_iff {input : Bytes} {lx : Lexer} (hc : lx.Clean)
    (hs : lx.is.rest <:+ input) (h : Exact input lx) (hlast : lx.last ≠ EOF) :
    Exact input lx.readIdentifier.2 ↔ lx.readIdentifier.2.last ≠ ch '\n' :=
  wordLoop_exact_iff { lx with text := [lx.last] } hc hs h hlast

theorem stringLoop_row_col (lx : Lexer) :
    (stringLoop lx).2.row = lx.row ∧ (stringLoop lx).2.col = lx.col := by
  fun_induction stringLoop lx with
  | case1 => exact ⟨rfl, rfl⟩
  | case2 => exact ⟨rfl, rfl⟩
  | case3 => exact ⟨rfl, rfl⟩
  | case4 lx _ _ _ _ ih => exact ih
  | case5 lx _ _ _ ih => exact ih

/-- Unless the string loop stops at once, it extracts something or meets the end. -/
theorem stringLoop_lag {lx : Lexer} (hquote : lx.last ≠ ch '"') (hend : lx.last ≠ EOF) :
    (stringLoop lx).2.is.rest.length < lx.is.rest.length ∨ (stringLoop lx).2.last = EOF := by
  rw [stringLoop, if_neg hquote, if_neg hend]
  by_cases hget : lx.getLast.last = EOF
  · right
    by_cases hescape : lx.last = ch '\\'
    · rw [if_pos hescape, if_pos hget]
      exact hget
    · have hquote' : (lx.getLast.withText (lx.text ++ [lx.last])).last ≠ ch '"' := by
        show lx.getLast.last ≠ ch '"'
        rw [hget]
        decide
      rw [if_neg hescape, stringLoop, if_neg hquote']
      rw [if_pos (by exact hget)]
      exact hget
  · left
    have hlt := (getLast_rest_length lx).2 hget
    by_cases hescape : lx.last = ch '\\'
    · rw [if_pos hescape, if_neg hget]
      have hsuf := (stringLoop_suffix (lx.getLast.getLast.withText
        (lx.text ++ [ch '\\'] ++ [lx.getLast.last]))).trans (getLast_suffix lx.getLast)
      exact Nat.lt_of_le_of_lt hsuf.length_le hlt
    · rw [if_neg hescape]
      exact Nat.lt_of_le_of_lt (stringLoop_suffix _).length_le hlt

theorem stringLoop_of_stop {lx : Lexer} (h : lx.last = ch '"' ∨ lx.last = EOF) :
    (stringLoop lx).2 = lx := by
  rw [stringLoop]
  by_cases hquote : lx.last = ch '"'
  · rw [if_pos hquote]
  · rw [if_neg hquote, if_pos (h.resolve_left hquote)]

theorem stringLoop_exact_iff {input : Bytes} (lx : Lexer) (hs : lx.is.rest <:+ input)
    (h : Exact input lx) :
    Exact input (stringLoop lx).2 ↔ lx.last = ch '"' ∨ lx.last = EOF := by
  constructor
  · intro hexact
    by_contra hstop
    rw [not_or] at hstop
    obtain ⟨hrow, hcol⟩ := stringLoop_row_col lx
    obtain ⟨w, hw⟩ := stringLoop_suffix lx
    have hlen : w.length + (stringLoop lx).2.is.rest.length = lx.is.rest.length := by
      rw [← List.length_append, hw]
    obtain ⟨-, hcount⟩ := (exact_iff_of_append hs h hw.symm hrow).mp hexact
    rw [hcol, endCount, if_neg hstop.2] at hcount
    rcases stringLoop_lag hstop.1 hstop.2 with hlt | heof
    · omega
    · rw [endCount, if_pos heof] at hcount
      omega
  · intro hstop
    rw [stringLoop_of_stop hstop]
    exact h

/-- `read_string` does not count: the position is exact only behind an empty string. -/
theorem readString_exact_iff {input : Bytes} {lx : Lexer} (hs : lx.is.rest <:+ input)
    (h : Exact input lx) :
    Exact input lx.readString.2 ↔ lx.last = ch '"' ∨ lx.last = EOF :=
  stringLoop_exact_iff (lx.withText []) hs h

/-! ## Lines and comments -/

/-- Skipping the rest of a line is tracked, unless the input ends on that line. -/
def lineTracked (s : Bytes) : Bool :=
  s.takeWhile (· != ch '\n') == [] || s.dropWhile (· != ch '\n') != []

theorem advance_of_not_good (lx : Lexer) (hlast : lx.last ≠ EOF) (hg : lx.is.good = false) :
    lx.advance.is.rest = lx.is.rest ∧ lx.advance.last = EOF ∧ lx.advance.row = lx.row ∧
      lx.advance.col = lx.col + 1 := by
  have hget : lx.getLast = { lx with is := { lx.is with fail := true }, last := EOF } := by
    rw [getLast, Istream.get_of_not_good hg]
    rfl
  have hne : EOF ≠ ch '\n' := by decide
  rw [Lexer.advance, if_neg hlast, hget, if_neg (by exact hne)]
  exact ⟨rfl, rfl, rfl, rfl⟩

/-- When `advance` meets the end of the input the stream is not good any more. -/
theorem not_good_of_advance {lx : Lexer} (hc : lx.Clean) (hlast : lx.last ≠ EOF)
    (h : lx.advance.last = EOF) : lx.advance.is.good = false := by
  rw [advance_last hlast] at h
  rw [advance_is hlast]
  by_cases hg : lx.is.good = true
  · have his := Istream.eq_ofBytes hg
    cases hr : lx.is.rest with
    | nil =>
      rw [getLast, his, hr]
      rfl
    | cons c s =>
      rw [hr] at his
      rw [getLast, his] at h
      have hc' : c = EOF := h
      exact absurd (by rw [hr, hc']; exact List.mem_cons_self) hc
  · rw [Bool.not_eq_true] at hg
    rw [getLast, Istream.get_of_not_good hg]
    exact Istream.not_good_fail _ _

/-- Behind a stream that `is.get(sb)` has left not good: the position is exact if
nothing was skipped. -/
theorem exact_advance_of_not_good_iff {input w : Bytes} {lx : Lexer} {is : Istream}
    (hs : lx.is.rest <:+ input) (h : Exact input lx) (hlast : lx.last ≠ EOF)
    (hg : is.good = false) (hw : lx.is.rest = w ++ is.rest) :
    Exact input (advance { lx with is := is }) ↔ w = [] := by
  obtain ⟨hrest, hl, hrow, hcol⟩ := advance_of_not_good { lx with is := is } hlast hg
  have hcol : (advance { lx with is := is }).col = lx.col + 1 := hcol
  rw [exact_iff_of_append hs h (hw.trans (by rw [hrest])) hrow, hcol, endCount, endCount,
    if_neg hlast, hl, if_pos rfl, ← List.length_eq_zero_iff]
  constructor
  · intro hnew
    obtain ⟨_, hcount⟩ := hnew
    omega
  · intro hnil
    refine ⟨?_, by omega⟩
    rw [List.length_eq_zero_iff.mp hnil]
    exact List.not_mem_nil

/-- Behind a line end that follows skipped characters the position is exact. -/
theorem exact_advance_newline {input w s : Bytes} {lx : Lexer} (hs : lx.is.rest <:+ input)
    (h : Exact input lx) (hlast : lx.last ≠ EOF) (hnone : ch '\n' ∉ w)
    (hw : lx.is.rest = w ++ ch '\n' :: s) :
    Exact input (advance { lx with is := Istream.ofBytes (ch '\n' :: s) }) := by
  have hget : getLast { lx with is := Istream.ofBytes (ch '\n' :: s) } =
      { lx with is := Istream.ofBytes s, last := ch '\n' } := rfl
  rw [Lexer.advance, if_neg (by exact hlast), hget, if_pos rfl]
  exact exact_of_newline hs h hnone hw (by exact (show ch '\n' ≠ EOF by decide)) rfl rfl

/-- The case of `readLocation_exact_iff` in which the stream has a line to skip. -/
theorem readLocation_exact_iff_of_good {input : Bytes} {lx : Lexer}
    (hs : lx.is.rest <:+ input) (h : Exact input lx) (hlast : lx.last ≠ EOF)
    (hg : lx.is.good = true) :
    (Exact input lx.readLocation ↔ lineTracked lx.is.rest = true) ∧
      (lineTracked lx.is.rest = false → lx.readLocation.last = EOF) := by
  have hsplit := List.takeWhile_append_dropWhile (p := (· != ch '\n')) (l := lx.is.rest)
  rw [readLocation, Istream.getLine, if_pos hg, lineTracked]
  by_cases htake : lx.is.rest.takeWhile (· != ch '\n') = []
  · rw [htake] at hsplit
    rw [exact_advance_of_not_good_iff (w := []) hs h hlast (by simp [Istream.good, htake])
      hsplit.symm, htake]
    simp
  cases hdrop : lx.is.rest.dropWhile (· != ch '\n') with
  | nil =>
    have hbad : Istream.good ⟨[], ([] : Bytes) == [],
        lx.is.rest.takeWhile (· != ch '\n') == []⟩ = false := rfl
    rw [hdrop] at hsplit
    rw [exact_advance_of_not_good_iff hs h hlast hbad hsplit.symm]
    refine ⟨by simp, fun _ => ?_⟩
    exact (advance_of_not_good { lx with is := ⟨[], ([] : Bytes) == [],
      lx.is.rest.takeWhile (· != ch '\n') == []⟩ } hlast hbad).2.1
  | cons c s =>
    have hc : c = ch '\n' := by
      have hhead := List.head?_dropWhile_not (· != ch '\n') lx.is.rest
      rw [hdrop] at hhead
      simpa using hhead
    have hnone : ch '\n' ∉ lx.is.rest.takeWhile (· != ch '\n') := fun hmem => by
      simpa using List.mem_takeWhile_imp hmem
    rw [hdrop, hc] at hsplit
    rw [hc]
    have hfail : (lx.is.rest.takeWhile (· != ch '\n') == []) = false := by
      simpa using htake
    rw [hfail]
    refine ⟨⟨fun _ => by simp, fun _ => ?_⟩, fun hf => absurd hf (by simp)⟩
    exact exact_advance_newline hs h hlast hnone hsplit.symm

theorem readLocation_exact_iff {input : Bytes} {lx : Lexer} (hs : lx.is.rest <:+ input)
    (h : Exact input lx) (hend : lx.last = EOF → lx.is.good = false) :
    (Exact input lx.readLocation ↔ lineTracked lx.pending.tail = true) ∧
      (lineTracked lx.pending.tail = false → lx.readLocation.last = EOF) := by
  by_cases hg : lx.is.good = true
  · have hlast : lx.last ≠ EOF := fun he => by simp [hend he] at hg
    rw [pending, if_neg hlast, if_pos hg, List.tail_cons]
    exact readLocation_exact_iff_of_good hs h hlast hg
  · rw [Bool.not_eq_true] at hg
    have htail : lx.pending.tail = [] := by
      unfold pending
      split
      · rfl
      · rw [hg]
        rfl
    rw [htail, readLocation, Istream.getLine, hg, if_neg Bool.false_ne_true]
    refine ⟨⟨fun _ => rfl, fun _ => ?_⟩, fun hf => absurd hf (by decide)⟩
    by_cases hlast : lx.last = EOF
    · rw [advance_of_eof (by exact hlast)]
      exact h
    · exact (exact_advance_of_not_good_iff (w := []) hs h hlast (Istream.not_good_fail _ _)
        rfl).mpr rfl

theorem Exact.blockRound {input : Bytes} {lx : Lexer} (hc : lx.Clean)
    (hs : lx.is.rest <:+ input) (h : Exact input lx) : Exact input lx.blockRound := by
  have hadvance := h.advance hc hs
  have hstars := (skips_skipStars lx.advance).exact hc.advance ((advance_suffix lx).trans hs)
    hadvance
  unfold Lexer.blockRound
  split
  · split
    · rename_i hslash
      obtain ⟨hrow, hcol⟩ := hstars
      rw [endCount, hslash, if_neg (by decide)] at hcol
      exact ⟨hrow, hcol⟩
    · exact hstars
  · exact hadvance

theorem BlockEnds.exact {input : Bytes} {lx lx' : Lexer} (hb : BlockEnds lx lx')
    (hc : lx.Clean) (hs : lx.is.rest <:+ input) (h : Exact input lx) : Exact input lx' := by
  induction hb with
  | @stop lx _ => exact h.blockRound hc hs
  | @round lx _ _ _ ih =>
    exact ih (blockRound_clean hc) ((blockRound_suffix lx).trans hs) (h.blockRound hc hs)

/-! ## The texts at which a call is tracked -/

/-- The call that reads this text counts every character: its word is not directly
followed by a line end, its string stops at once, and the input does not end on a line
that it skips. -/
def tracked : Bytes → Bool
  | [] => true
  | c :: s =>
    if isspace c then tracked s
    else if isWordStart c then (s.dropWhile isWordChar).head? != some (ch '\n')
    else if c = ch '"' then s.head? == none || s.head? == some (ch '"')
    else if c = ch '#' then lineTracked s.tail && tracked (afterLine s.tail)
    else if c = ch '/' ∧ s.head? = some (ch '/') then
      lineTracked s.tail && tracked (afterLine s.tail)
    else if c = ch '/' ∧ s.head? = some (ch '*') then
      match _h : blockEnd false s.tail with
      | none => true
      | some t => tracked t
    else true
termination_by s => s.length
decreasing_by
  all_goals have htail := (List.tail_suffix s).length_le
  · exact Nat.lt_succ_self _
  · have := (afterLine_suffix s.tail).length_le
    rw [List.length_cons]
    omega
  · have := (afterLine_suffix s.tail).length_le
    rw [List.length_cons]
    omega
  · have := (blockEnd_suffix _h).length_le
    rw [List.length_cons]
    omega

theorem tracked_nil : tracked [] = true := by rw [tracked]

theorem tracked_dropWhile (s : Bytes) : tracked (s.dropWhile isspace) = tracked s := by
  induction s with
  | nil => rfl
  | cons c s ih =>
    by_cases h : isspace c = true
    · rw [List.dropWhile_cons_of_pos h, ih, tracked.eq_2 c s, if_pos h]
    · rw [List.dropWhile_cons_of_neg h]

theorem tracked_word {c : UInt8} (h : isWordStart c = true) (s : Bytes) :
    tracked (c :: s) = ((s.dropWhile isWordChar).head? != some (ch '\n')) := by
  rw [tracked, isspace_of_isWordStart h, if_neg Bool.false_ne_true, if_pos h]

theorem tracked_quote (s : Bytes) :
    tracked (ch '"' :: s) = (s.head? == none || s.head? == some (ch '"')) := by
  rw [tracked, if_neg (by decide), if_neg (by decide), if_pos rfl]

theorem tracked_location (s : Bytes) :
    tracked (ch '#' :: s) = (lineTracked s.tail && tracked (afterLine s.tail)) := by
  rw [tracked, if_neg (by decide), if_neg (by decide), if_neg (by decide), if_pos rfl]

theorem tracked_line (s : Bytes) :
    tracked (ch '/' :: ch '/' :: s) = (lineTracked s && tracked (afterLine s)) := by
  rw [tracked, if_neg (by decide), if_neg (by decide), if_neg (by decide), if_neg (by decide),
    if_pos ⟨rfl, rfl⟩, List.tail_cons]

theorem tracked_block {s t : Bytes} (h : blockEnd false s = some t) :
    tracked (ch '/' :: ch '*' :: s) = tracked t := by
  rw [tracked, if_neg (by decide), if_neg (by decide), if_neg (by decide), if_neg (by decide),
    if_neg (by simp [show ch '*' ≠ ch '/' by decide]), if_pos ⟨rfl, rfl⟩]
  split
  · rename_i hnone
    rw [List.tail_cons, h] at hnone
    cases hnone
  · rename_i u hsome
    rw [List.tail_cons, h] at hsome
    rw [Option.some.inj hsome]

theorem tracked_other {c : UInt8} {s : Bytes}
    (h : (!isspace c && !isWordStart c && c != ch '"' && c != ch '#') = true)
    (hcomment : ¬(c = ch '/' ∧ (s.head? = some (ch '/') ∨ s.head? = some (ch '*')))) :
    tracked (c :: s) = true := by
  simp only [Bool.and_eq_true, Bool.not_eq_true', bne_iff_ne, ne_eq] at h
  obtain ⟨⟨⟨hspace, hword⟩, hquote⟩, hhash⟩ := h
  rw [tracked, hspace, if_neg Bool.false_ne_true, hword, if_neg Bool.false_ne_true,
    if_neg hquote, if_neg hhash, if_neg fun hl => hcomment ⟨hl.1, .inl hl.2⟩,
    if_neg fun hb => hcomment ⟨hb.1, .inr hb.2⟩]

/-! ## A call keeps the position exact when it is tracked -/

theorem skipSpaces_last (lx : Lexer) : isspace lx.skipSpaces.last = false := by
  fun_induction skipSpaces lx with
  | case1 lx h ih => exact ih
  | case2 lx h => simpa using h

theorem tracked_first {lx : Lexer} (hc : lx.Clean) {c : UInt8} (h : lx.skipSpaces.last = c)
    (hne : c ≠ EOF) : tracked lx.pending = tracked (c :: lx.skipSpaces.advance.pending) := by
  rw [← h, ← pending_first hc (by rw [h]; exact hne), tracked_dropWhile]

theorem Exact.first {input : Bytes} {lx : Lexer} (hc : lx.Clean) (hs : lx.is.rest <:+ input)
    (h : Exact input lx) :
    Exact input lx.skipSpaces.advance ∧ lx.skipSpaces.advance.is.rest <:+ input := by
  have hsuf := (skips_skipSpaces lx).rest_suffix.trans hs
  exact ⟨((skips_skipSpaces lx).exact hc hs h).advance (hc.skips (skips_skipSpaces lx)) hsuf,
    (advance_suffix _).trans hsuf⟩

theorem not_good_first {lx : Lexer} (hc : lx.Clean) {c : UInt8} (h : lx.skipSpaces.last = c)
    (hne : c ≠ EOF) : lx.skipSpaces.advance.last = EOF → lx.skipSpaces.advance.is.good = false :=
  not_good_of_advance (hc.skips (skips_skipSpaces lx)) (by rw [h]; exact hne)

theorem scan_of_eof {lx : Lexer} (hlast : lx.last = EOF) : Scan lx (.ok .tEnd, lx) := by
  have hskip : lx.skipSpaces = lx := by
    rw [skipSpaces, hlast, if_neg (by decide)]
  have hend : Scan lx (.ok .tEnd, lx.skipSpaces) := .finish (by rw [hskip]; exact hlast)
  rwa [hskip] at hend

/-- At the end of the input a call changes nothing. -/
theorem Scan.of_eof {lx : Lexer} {o : Outcome} (h : Scan lx o) (hlast : lx.last = EOF) :
    o = (.ok .tEnd, lx) :=
  (completes_iff_scan.mpr h).unique (completes_iff_scan.mpr (scan_of_eof hlast))

/-- The call behind a skipped line keeps the position exact if the skipping does and
the call itself does. -/
theorem exact_after_line {input : Bytes} {lx : Lexer} {o : Outcome}
    (h : Scan lx.readLocation o) (hs : lx.is.rest <:+ input) (hexact : Exact input lx)
    (hend : lx.last = EOF → lx.is.good = false)
    (ih : Exact input lx.readLocation →
      (Exact input o.2 ↔ tracked lx.readLocation.pending = true)) :
    Exact input o.2 ↔
      (lineTracked lx.pending.tail && tracked lx.readLocation.pending) = true := by
  obtain ⟨hiff, hstop⟩ := readLocation_exact_iff hs hexact hend
  cases hline : lineTracked lx.pending.tail with
  | true =>
    rw [Bool.true_and]
    exact ih (hiff.mpr hline)
  | false =>
    rw [h.of_eof (hstop hline), hiff, hline, Bool.false_and]

/-- A call that finds the position exact leaves it exact if and only if the text it
reads is tracked. -/
theorem Scan.exact_iff {input : Bytes} {lx : Lexer} {o : Outcome} (h : Scan lx o)
    (hc : lx.Clean) (hs : lx.is.rest <:+ input) (hexact : Exact input lx) :
    Exact input o.2 ↔ tracked lx.pending = true := by
  induction h with
  | @finish lx h =>
    refine ⟨fun _ => ?_, fun _ => (skips_skipSpaces lx).exact hc hs hexact⟩
    rw [← tracked_dropWhile, ← pending_skipSpaces hc, pending_of_eof h, tracked_nil]
  | @word lx h =>
    have hskips := skips_skipSpaces lx
    have hclean := hc.skips hskips
    have hne := ne_eof_of_isWordStart h
    rw [readIdentifier_exact_iff hclean (hskips.rest_suffix.trans hs)
        (hskips.exact hc hs hexact) hne,
      tracked_first hc rfl hne, tracked_word h, bne_iff_ne, pending_advance hclean,
      ← (readIdentifier_pending hclean hne).1, Ne, Ne, head?_pending_eq_some (by decide)]
  | @number lx h =>
    obtain ⟨value, width, lx', hskips, hstate⟩ := readNumber_state lx.skipSpaces
    obtain ⟨hfirst, hsuf⟩ := hexact.first hc hs
    have hexact' : Exact input lx' := hskips.exact hc.first hsuf hfirst
    rw [hstate]
    refine ⟨fun _ => ?_, fun _ => hexact'⟩
    rw [tracked_first hc rfl (ne_eof_of_isdigit h), tracked_other]
    · rw [isspace_of_isWordChar (isWordChar_of_isdigit h), isWordStart_of_isdigit h]
      have hquote := ne_of_class h (show isdigit (ch '"') = false by decide)
      have hhash := ne_of_class h (show isdigit (ch '#') = false by decide)
      simp [hquote, hhash]
    · intro hslash
      exact ne_of_class h (by decide) hslash.1
  | @string lx h =>
    obtain ⟨hfirst, hsuf⟩ := hexact.first hc hs
    rw [readString_exact_iff hsuf hfirst, tracked_first hc h (by decide), tracked_quote,
      Bool.or_eq_true, beq_iff_eq, beq_iff_eq, head?_pending_eq_some (by decide),
      List.head?_eq_none_iff, pending_eq_nil_iff, or_comm]
  | @locationEnd lx h hend =>
    obtain ⟨hfirst, hsuf⟩ := hexact.first hc hs
    rw [tracked_first hc h (by decide), tracked_location, ← pending_readLocation hc.first]
    refine exact_after_line (scan_of_eof hend) hsuf hfirst (not_good_first hc h (by decide))
      fun he => ?_
    rw [pending_of_eof hend, tracked_nil]
    exact ⟨fun _ => rfl, fun _ => he⟩
  | @location lx o h hend hnext ih =>
    obtain ⟨hfirst, hsuf⟩ := hexact.first hc hs
    rw [tracked_first hc h (by decide), tracked_location, ← pending_readLocation hc.first]
    exact exact_after_line hnext hsuf hfirst (not_good_first hc h (by decide))
      (ih hc.first.readLocation ((readLocation_suffix _).trans hsuf))
  | @lineComment lx o h hl hnext ih =>
    obtain ⟨hfirst, hsuf⟩ := hexact.first hc hs
    have hline := pending_readLocation hc.first
    rw [tracked_first hc h (by decide), pending_second hl (by decide), tracked_line, ← hline]
    exact exact_after_line hnext hsuf hfirst (not_good_first hc h (by decide))
      (ih hc.first.readLocation ((readLocation_suffix _).trans hsuf))
  | @blockComment lx lx' o h hl hblock _ ih =>
    obtain ⟨hfirst, hsuf⟩ := hexact.first hc hs
    obtain ⟨hend, hclean⟩ := hblock.blockEnd_eq hc.first
    have hsuf' := hblock.rest_suffix.trans hsuf
    have hexact' := hblock.exact hc.first hsuf hfirst
    rw [ih hclean.advance ((advance_suffix lx').trans hsuf') (hexact'.advance hclean hsuf'),
      tracked_first hc h (by decide), pending_second hl (by decide), tracked_block hend,
      pending_advance hclean]
  | @operator lx h hcomment =>
    obtain ⟨hfirst, hsuf⟩ := hexact.first hc hs
    have hskips := skips_readOperator lx.skipSpaces.last lx.skipSpaces.advance
    refine ⟨fun _ => ?_, fun _ => hskips.exact hc.first hsuf hfirst⟩
    have hne : lx.skipSpaces.last ≠ EOF := ne_eof_of_isOperatorStart h
    rw [tracked_first hc rfl hne, tracked_other]
    · simp only [isOperatorStart, Bool.and_eq_true] at h
      simp only [Bool.and_eq_true, skipSpaces_last, h]
      exact ⟨⟨⟨rfl, trivial⟩, trivial⟩, trivial⟩
    · rwa [head?_pending_eq_some (by decide), head?_pending_eq_some (by decide)]

/-! ## Runs of calls -/

theorem start_suffix (input : Bytes) : (start input).is.rest <:+ input := List.suffix_rfl

/-- Every call of the run returned a token. -/
def Returned (os : List Outcome) : Prop := ∀ o ∈ os, ∃ token, o.1 = .ok token

/-- In every run the position is exact after every call, if and only if every call that
returns reads a text at which it is tracked. -/
theorem exact_iff_tracked (input : Bytes) (hascii : Ascii input) :
    (∀ os lx, Calls (start input) os lx → Returned os → Exact input lx) ↔
      (∀ os lx o, Calls (start input) os lx → Returned (os ++ [o]) → Completes lx o →
        tracked lx.pending = true) := by
  have hc := clean_start hascii
  constructor
  · intro hexact os lx o hcalls hret hcall
    have hsuf := hcalls.rest_suffix
    have hstep : Exact input lx := hexact os lx hcalls fun o' ho' =>
      hret o' (List.mem_append_left _ ho')
    exact ((completes_iff_scan.mp hcall).exact_iff (hc.of_suffix hsuf)
      (hsuf.trans (start_suffix input)) hstep).mp
        (hexact (os ++ [o]) o.2 (hcalls.append (.cons hcall (.nil _))) hret)
  · intro htracked os
    induction os using List.reverseRecOn with
    | nil =>
      intro lx hcalls _
      cases hcalls
      exact exact_start input
    | append_singleton os o ih =>
      intro lx hcalls hret
      obtain ⟨lx₁, hcalls₁, hcall, rfl⟩ := hcalls.snoc_inv
      have hsuf := hcalls₁.rest_suffix
      have hstep : Exact input lx₁ := ih lx₁ hcalls₁ fun o' ho' =>
        hret o' (List.mem_append_left _ ho')
      exact ((completes_iff_scan.mp hcall).exact_iff (hc.of_suffix hsuf)
        (hsuf.trans (start_suffix input)) hstep).mpr (htracked os lx₁ o hcalls₁ hret hcall)

theorem exact_iff_tracked_words :
    (∀ os lx, Calls (start (str "a /* b */ c\n")) os lx → Returned os →
      Exact (str "a /* b */ c\n") lx) ↔
      (∀ os lx o, Calls (start (str "a /* b */ c\n")) os lx → Returned (os ++ [o]) →
        Completes lx o → tracked lx.pending = true) :=
  exact_iff_tracked (str "a /* b */ c\n") (by decide)

/-- Behind a word that ends its line the lexer still reports the row of the word. -/
theorem not_exact_word_newline :
    ¬∀ os lx, Calls (start (str "a\n")) os lx → Returned os → Exact (str "a\n") lx := by
  intro h
  have hascii : Ascii (str "a\n") := by decide
  have hword : isWordStart (start (str "a\n")).skipSpaces.last = true := by decide +kernel
  have hscan := Scan.word hword
  have hexact := h [_] _ (.cons (completes_of_scan hscan) (.nil _)) fun o ho => by
    rw [List.mem_singleton.mp ho]
    exact ⟨_, rfl⟩
  have htracked := (hscan.exact_iff (clean_start hascii) (start_suffix _)
    (exact_start _)).mp hexact
  revert htracked
  decide +kernel

end Lexer

end P4LS
