import P4LS.Server.Framing

/-!
# The lines of a header

The loop of `read_message` takes one line after another until one is empty.  At
the end of the input it goes on when the error number is that of an interrupted
call, whether or not the last reading was interrupted, so a call comes back only
where there is an empty line or where there was no interruption.
-/

namespace P4LS

open Bytes

/-! ## What a round does -/

/-- The length on a line, if any, is one that can be converted. -/
def LengthFits (line : Bytes) : Prop :=
  ∀ digits, contentLengthMatch (stripCarriageReturn line) = some digits →
    digitsValue 10 digits 0 < 2 ^ 64

/-- What a round does with a line that it has got, before the input behind it. -/
def lineRound (contentLength : Nat) (line : Bytes) (input : Input) : HeaderRound :=
  match contentLengthMatch (stripCarriageReturn line) with
  | some digits =>
    match stoull digits with
    | .ok length => .again length input
    | .error error => .thrown (.conversion error)
  | none =>
    if stripCarriageReturn line ≠ [] then .again contentLength input else .done contentLength input

variable {input input' : Input} {line rest : Bytes} {contentLength : Nat}

/-- A round over a line that the input has in full. -/
theorem headerRound_complete {later : List Bytes} {interrupted : Bool} (h : ch '\n' ∉ line)
    (contentLength : Nat) :
    headerRound contentLength ⟨.ofBytes (line ++ ch '\n' :: rest), later, interrupted⟩ =
      lineRound contentLength line ⟨.ofBytes rest, later, interrupted⟩ := by
  have hgetline : Input.getline ⟨.ofBytes (line ++ ch '\n' :: rest), later, interrupted⟩ =
      (line, ⟨.ofBytes rest, later, interrupted⟩) := by
    rw [Input.getline, Istream.getline_line h]
    cases later <;> rfl
  rw [headerRound, hgetline]
  rfl

/-- A round that meets the end of what there is, with the error number of an
interruption. -/
theorem headerRound_retried (h : ch '\n' ∉ rest) (hstream : input.stream = .ofBytes rest)
    (hquiet : input.quiet = false) (contentLength : Nat) :
    headerRound contentLength input = .again contentLength input.retried := by
  obtain ⟨stream, later, interrupted⟩ := input
  subst hstream
  cases later with
  | nil =>
    have hinterrupted : interrupted = true := by simpa [Input.quiet] using hquiet
    subst hinterrupted
    rw [headerRound, Input.getline, Istream.getline_last h]
    rfl
  | cons next later =>
    rw [headerRound, Input.getline, Istream.getline_last h]
    rfl

/-- A round at the end of an input that was not interrupted. -/
theorem headerRound_last (h : ch '\n' ∉ rest) (contentLength : Nat) :
    headerRound contentLength (.ofBytes rest false) =
      lineRound contentLength rest ⟨⟨[], true, rest == []⟩, [], false⟩ := by
  rw [headerRound, Input.getline, Input.ofBytes, Istream.getline_last h]
  rfl

theorem headerRound_not_good (hgood : input.good = false) (contentLength : Nat) :
    headerRound contentLength input = .done contentLength input := by
  rw [headerRound, hgood]
  exact if_neg Bool.false_ne_true

/-- A round takes the next line, or finds that there is none and goes on. -/
theorem headerRound_cases (hgood : input.good = true) :
    (∃ line input', input.lines = line :: input'.lines ∧ input'.size < input.size ∧
      input.quiet = (!input'.good || input'.quiet) ∧
      ∀ contentLength, headerRound contentLength input = lineRound contentLength line input') ∨
    (input.quiet = false ∧ input.lines = input.retried.lines ∧
      (input.lines ≠ [] → input.retried.size < input.size) ∧
      ∀ contentLength, headerRound contentLength input = .again contentLength input.retried) := by
  obtain ⟨stream, later, interrupted⟩ := input
  rcases Input.line_or_not_mem hgood with ⟨line, rest, hline, heq⟩ | ⟨rest, hrest, heq⟩
  · rw [heq]
    refine .inl ⟨line, ⟨.ofBytes rest, later, interrupted⟩, Input.lines_complete hline, ?_, rfl,
      headerRound_complete hline⟩
    simp only [Input.size, Input.good, Istream.good_ofBytes, Istream.rest_ofBytes, ↓reduceIte,
      List.flatten_cons, List.length_append, List.length_cons]
    omega
  · rw [heq]
    cases hquiet : Input.quiet ⟨.ofBytes rest, later, interrupted⟩ with
    | true =>
      obtain ⟨hlater, hinterrupted⟩ := Input.of_quiet hquiet
      subst hlater hinterrupted
      refine .inl ⟨rest, ⟨⟨[], true, rest == []⟩, [], false⟩, Input.lines_last hrest, ?_, rfl,
        headerRound_last hrest⟩
      rw [Input.size_not_good rfl, Input.size_of_good rfl]
      exact Nat.succ_pos _
    | false =>
      refine .inr ⟨rfl, Input.lines_retried hrest hquiet, ?_, headerRound_retried hrest rfl hquiet⟩
      intro hlines
      cases later with
      | nil =>
        rw [Input.lines_retried hrest hquiet] at hlines
        exact absurd rfl hlines
      | cons next later =>
        simp only [Input.size, Input.good, Input.retried, Istream.good_ofBytes,
          Istream.rest_ofBytes, ↓reduceIte, List.flatten_cons, List.length_append, List.length_cons]
        omega

/-! ## Coming back -/

/-- The lines in front of the empty one. -/
def headerLines (input : Input) : List Bytes := input.lines.takeWhile (stripCarriageReturn · ≠ [])

/-- The header ends: at the end of an input that was not interrupted, or with an
empty line. -/
def HeaderEnds (input : Input) : Prop :=
  input.good = true → input.quiet = true ∨ ∃ line ∈ input.lines, stripCarriageReturn line = []

/-- Every length in the header can be converted. -/
def LengthsFit (input : Input) : Prop := ∀ line ∈ headerLines input, LengthFits line

theorem headerLines_cons (hlines : input.lines = line :: input'.lines)
    (hline : stripCarriageReturn line ≠ []) : headerLines input = line :: headerLines input' := by
  rw [headerLines, hlines, List.takeWhile_cons_of_pos (by simpa using hline)]
  rfl

theorem headerLines_empty (hlines : input.lines = line :: input'.lines)
    (hline : stripCarriageReturn line = []) : headerLines input = [] := by
  rw [headerLines, hlines, List.takeWhile_cons_of_neg]
  simpa using hline

theorem headerLines_of_lines_nil (hlines : input.lines = []) : headerLines input = [] := by
  rw [headerLines, hlines, List.takeWhile_nil]

theorem lengthsFit_of_nil (h : headerLines input = []) : LengthsFit input := by
  rw [LengthsFit, h]
  exact fun _ hmem => absurd hmem List.not_mem_nil

theorem lengthsFit_congr (hlines : input.lines = input'.lines) :
    LengthsFit input ↔ LengthsFit input' := by
  rw [LengthsFit, LengthsFit, headerLines, headerLines, hlines]

theorem lengthsFit_cons (hlines : input.lines = line :: input'.lines)
    (hline : stripCarriageReturn line ≠ []) :
    LengthsFit input ↔ LengthFits line ∧ LengthsFit input' := by
  rw [LengthsFit, headerLines_cons hlines hline, List.forall_mem_cons]
  rfl

theorem headerEnds_cons (hgood : input.good = true) (hlines : input.lines = line :: input'.lines)
    (hquiet : input.quiet = (!input'.good || input'.quiet))
    (hline : stripCarriageReturn line ≠ []) : HeaderEnds input ↔ HeaderEnds input' := by
  have hmem : (∃ line' ∈ input.lines, stripCarriageReturn line' = []) ↔
      ∃ line' ∈ input'.lines, stripCarriageReturn line' = [] := by
    rw [hlines]
    simp only [List.mem_cons, exists_eq_or_imp, hline, false_or]
  simp only [HeaderEnds, hgood, hmem, hquiet, Bool.or_eq_true, Bool.not_eq_true', forall_true_left]
  cases input'.good with
  | true => simp
  | false => simp

/-- The digits on a line are digits. -/
theorem contentLengthMatch_eq_some {digits : Bytes} (h : contentLengthMatch line = some digits) :
    digits ≠ [] ∧ ∀ c ∈ digits, isdigit c = true := by
  unfold contentLengthMatch at h
  split at h
  · dsimp only at h
    split at h
    · next hdigits =>
      cases h
      exact ⟨hdigits.1, List.all_eq_true.mp hdigits.2⟩
    · cases h
  · cases h

theorem stoull_outOfRange {digits : Bytes} (hne : digits ≠ [])
    (hall : ∀ c ∈ digits, isdigit c = true) (h : ¬ digitsValue 10 digits 0 < 2 ^ 64) :
    stoull digits = .error .outOfRange := by
  have htake : digits.takeWhile isdigit = digits := List.takeWhile_eq_self_iff.mpr hall
  rw [stoull, htake]
  exact (if_neg hne).trans (if_neg h)

/-- A line that does not end the header is gone on from, unless its length cannot be converted. -/
theorem lineRound_cases (hline : stripCarriageReturn line ≠ []) (contentLength : Nat)
    (input : Input) :
    (LengthFits line ∧ ∃ length, lineRound contentLength line input = .again length input) ∨
      (¬ LengthFits line ∧ ∃ fault, lineRound contentLength line input = .thrown fault) := by
  unfold lineRound LengthFits
  cases hmatch : contentLengthMatch (stripCarriageReturn line) with
  | none => exact .inl ⟨fun _ h => (Option.some_ne_none _ h.symm).elim, contentLength, if_pos hline⟩
  | some digits =>
    obtain ⟨hne, hall⟩ := contentLengthMatch_eq_some hmatch
    by_cases hfits : digitsValue 10 digits 0 < 2 ^ 64
    · refine .inl ⟨?_, digitsValue 10 digits 0, ?_⟩
      · rintro _ ⟨⟩
        exact hfits
      · dsimp only
        rw [stoull_digits hne hall hfits]
    · refine .inr ⟨fun h => hfits (h digits rfl), .conversion .outOfRange, ?_⟩
      dsimp only
      rw [stoull_outOfRange hne hall hfits]

theorem lineRound_empty (hline : stripCarriageReturn line = []) (contentLength : Nat)
    (input : Input) : lineRound contentLength line input = .done contentLength input := by
  rw [lineRound, hline]
  rfl

/-- The loop comes back where the header ends or a length cannot be converted, and
throws in the second case.  The induction is on what is left of the input. -/
theorem readHeader_returns (h : HeaderEnds input ∨ ¬ LengthsFit input) (contentLength : Nat) :
    ∃ fuel result, readHeader fuel contentLength input = some result ∧
      ((∃ header, result = .ok header) ↔ LengthsFit input) := by
  induction hsize : input.size using Nat.strong_induction_on generalizing input contentLength with
  | _ size ih =>
    subst hsize
    cases hgood : input.good with
    | false =>
      have hlines : input.lines = [] := by rw [Input.lines, hgood]; rfl
      have hfits := lengthsFit_of_nil (headerLines_of_lines_nil hlines)
      refine ⟨1, .ok (contentLength, input), ?_, iff_of_true ⟨_, rfl⟩ hfits⟩
      rw [readHeader, headerRound_not_good hgood]
    | true =>
      rcases headerRound_cases hgood with
        ⟨line, input', hlines, hlt, hquiet, hround⟩ | ⟨hquiet, hlines, hlt, hround⟩
      · by_cases hline : stripCarriageReturn line = []
        · have hfits := lengthsFit_of_nil (headerLines_empty hlines hline)
          refine ⟨1, .ok (contentLength, input'), ?_, iff_of_true ⟨_, rfl⟩ hfits⟩
          rw [readHeader, hround, lineRound_empty hline]
        · rw [headerEnds_cons hgood hlines hquiet hline, lengthsFit_cons hlines hline] at h
          rw [lengthsFit_cons hlines hline]
          rcases lineRound_cases hline contentLength input' with
            ⟨hfits, length, hagain⟩ | ⟨hfits, fault, hthrown⟩
          · have h' : HeaderEnds input' ∨ ¬ LengthsFit input' :=
              h.imp_right fun hnot hall => hnot ⟨hfits, hall⟩
            obtain ⟨fuel, result, hresult, hiff⟩ := ih _ hlt h' length rfl
            refine ⟨fuel + 1, result, ?_, hiff.trans (iff_and_self.mpr fun _ => hfits)⟩
            rw [readHeader, hround, hagain]
            exact hresult
          · refine ⟨1, .error fault, ?_, iff_of_false ?_ fun h => hfits h.1⟩
            · rw [readHeader, hround, hthrown]
            · rintro ⟨_, ⟨⟩⟩
      · have hfits := lengthsFit_congr hlines
        have hne : input.lines ≠ [] := by
          intro hnil
          rcases h with hends | hnot
          · rcases hends hgood with h | ⟨line, hmem, _⟩
            · exact absurd (h.symm.trans hquiet) (by decide)
            · rw [hnil] at hmem
              exact absurd hmem List.not_mem_nil
          · exact hnot (lengthsFit_of_nil (headerLines_of_lines_nil hnil))
        have h' : HeaderEnds input.retried ∨ ¬ LengthsFit input.retried := by
          rw [← hfits]
          refine h.imp_left fun hends _ => .inr ?_
          rw [← hlines]
          exact (hends hgood).resolve_left (by rw [hquiet]; exact Bool.false_ne_true)
        obtain ⟨fuel, result, hresult, hiff⟩ := ih _ (hlt hne) h' contentLength rfl
        refine ⟨fuel + 1, result, ?_, hiff.trans hfits.symm⟩
        rw [readHeader, hround]
        exact hresult

/-- Without an end the loop goes on for ever: every round that is not the end of a line of the
input is an interruption once more. -/
theorem readHeader_endless (hends : ¬ HeaderEnds input) (hfits : LengthsFit input)
    (fuel contentLength : Nat) : readHeader fuel contentLength input = none := by
  induction fuel generalizing input contentLength with
  | zero => rfl
  | succ fuel ih =>
    obtain ⟨hgood, hnot⟩ := Classical.not_imp.mp hends
    rcases headerRound_cases hgood with
      ⟨line, input', hlines, _, hquiet, hround⟩ | ⟨hquiet, hlines, _, hround⟩
    · have hline : stripCarriageReturn line ≠ [] := fun hempty =>
        hnot (.inr ⟨line, by rw [hlines]; exact List.mem_cons_self, hempty⟩)
      rw [headerEnds_cons hgood hlines hquiet hline] at hends
      rw [lengthsFit_cons hlines hline] at hfits
      rcases lineRound_cases hline contentLength input' with
        ⟨_, length, hagain⟩ | ⟨hthrown, _⟩
      · rw [readHeader, hround, hagain]
        exact ih hends hfits.2 length
      · exact absurd hfits.1 hthrown
    · have hends' : ¬ HeaderEnds input.retried := by
        intro h
        have hquiet' : input.retried.quiet = false := by
          rw [Input.retried]
          cases input.later <;> exact Bool.and_false _
        have hgood' : input.retried.good = true := by
          rw [Input.retried]
          cases input.later <;> rfl
        refine hnot (.inr ?_)
        rw [hlines]
        exact (h hgood').resolve_left (by rw [hquiet']; exact Bool.false_ne_true)
      have hfits' := (lengthsFit_congr hlines).mp hfits
      rw [readHeader, hround]
      exact ih hends' hfits' contentLength

theorem readMessage_eq_some {fuel : Nat} {result : Except Fault (Option Bytes × Input)}
    (h : readMessage fuel input = some result) :
    ∃ header, readHeader fuel 0 input = some header ∧
      ((∃ message, result = .ok message) ↔ ∃ header', header = .ok header') := by
  obtain ⟨header, hheader, hresult⟩ := Option.map_eq_some_iff.mp h
  refine ⟨header, hheader, ?_⟩
  rw [← hresult]
  cases header with
  | ok header => exact iff_of_true ⟨_, rfl⟩ ⟨_, rfl⟩
  | error fault => exact iff_of_false (fun ⟨_, h⟩ => by cases h) (fun ⟨_, h⟩ => by cases h)

/-- A call leaves its loop if and only if the header ends or a length in it cannot be converted, and
it returns if and only if the header ends and all lengths can be converted. -/
theorem read_message_returns_iff (input : Input) :
    ((∃ fuel result, readMessage fuel input = some result) ↔
      HeaderEnds input ∨ ¬ LengthsFit input) ∧
    ((∃ message input', ReadStep input message input') ↔ HeaderEnds input ∧ LengthsFit input) := by
  have hleaves : (∃ fuel result, readMessage fuel input = some result) →
      HeaderEnds input ∨ ¬ LengthsFit input := by
    rintro ⟨fuel, result, hresult⟩
    obtain ⟨header, hheader, _⟩ := readMessage_eq_some hresult
    by_contra hnot
    obtain ⟨hends, hfits⟩ := not_or.mp hnot
    rw [readHeader_endless hends (not_not.mp hfits)] at hheader
    cases hheader
  have hreturns : HeaderEnds input ∨ ¬ LengthsFit input →
      ∃ fuel result, readMessage fuel input = some result ∧
        ((∃ message, result = .ok message) ↔ LengthsFit input) := by
    intro h
    obtain ⟨fuel, header, hheader, hiff⟩ := readHeader_returns h 0
    have hsome : ∃ result, readMessage fuel input = some result := by
      rw [readMessage, hheader]
      exact ⟨_, rfl⟩
    obtain ⟨result, hresult⟩ := hsome
    obtain ⟨header', hheader', hok⟩ := readMessage_eq_some hresult
    rw [hheader] at hheader'
    cases hheader'
    exact ⟨fuel, result, hresult, hok.trans hiff⟩
  constructor
  · refine ⟨hleaves, fun h => ?_⟩
    obtain ⟨fuel, result, hresult, _⟩ := hreturns h
    exact ⟨fuel, result, hresult⟩
  · constructor
    · rintro ⟨message, input', fuel, hfuel⟩
      have h := hleaves ⟨fuel, _, hfuel⟩
      obtain ⟨fuel', result, hresult, hiff⟩ := hreturns h
      -- Both calls had enough fuel, so they came to the same.
      have hmax := readMessage_mono (le_max_left fuel fuel') hfuel
      rw [readMessage_mono (le_max_right fuel fuel') hresult] at hmax
      have hfits := hiff.mp ⟨_, Option.some.inj hmax⟩
      exact ⟨h.resolve_right (not_not_intro hfits), hfits⟩
    · rintro ⟨hends, hfits⟩
      obtain ⟨fuel, result, hresult, hiff⟩ := hreturns (.inl hends)
      obtain ⟨⟨message, input'⟩, hok⟩ := hiff.mpr hfits
      rw [hok] at hresult
      exact ⟨message, input', fuel, hresult⟩

/-- At the end of the input, with the error number of an earlier interruption. -/
theorem read_message_endless :
    (Input.ofBytes [] true).good = true ∧
      ¬ ∃ fuel result, readMessage fuel (.ofBytes [] true) = some result := by
  refine ⟨rfl, fun ⟨fuel, result, hresult⟩ => ?_⟩
  have hends : ¬ HeaderEnds (.ofBytes [] true) := by
    intro h
    rcases h rfl with hquiet | ⟨line, hmem, _⟩
    · cases hquiet
    · cases hmem
  have hfits : LengthsFit (.ofBytes [] true) := fun _ hmem => by cases hmem
  obtain ⟨header, hheader, _⟩ := readMessage_eq_some hresult
  rw [readHeader_endless hends hfits] at hheader
  cases hheader

end P4LS
