import P4LS.Library.Simulation
import P4LS.Server.ReadLoop

/-!
# Interrupted reads

An interruption that comes where a header line begins takes nothing: the stream
is cleared and the line is read from its beginning.  The retry drops the part
of a line that was read already, and an interrupted content ends the session.
-/

namespace P4LS

open Bytes

/-- The messages a call gives. -/
def ReadAction.messages (action : ReadAction) : List Bytes := action.reads.reduceOption

/-- `run` obtains these messages, one after another, and no more. -/
def Obtains (input : Input) (messages : List Bytes) : Prop :=
  ShowsAll ReadingStep ReadAction.messages (.outside input) messages

/-- The reader that may be interrupted behind each of the segments. -/
def interruptedInput (first : Bytes) (later : List Bytes) (interrupted : Bool) : Input :=
  { stream := .ofBytes first, later := later, interrupted := interrupted }

/-- An interruption comes where a header line begins, or in a content whose bytes never come, or
where all that comes is ignored. -/
def Reading.Whole : Reading → Prop
  | header _ input => input.good = true → input.later ≠ [] →
      input.stream.rest = [] ∨ ch '\n' ∈ input.stream.rest
  | content contentLength input => input.good = true → input.later ≠ [] →
      contentLength < 2 ^ 63 - 1 → contentLength ≤ input.stream.rest.length ∨
        input.stream.rest.length + input.later.flatten.length < contentLength
  | _ => True

variable {s s' t t' : Reading} {action action' : ReadAction} {input input' : Input}
  {contentLength length : Nat} {line : Bytes}

/-! ## The content -/

theorem readContent_enough (hgood : input.good = true)
    (hlength : contentLength ≤ input.stream.rest.length) (hbounded : contentLength < 2 ^ 63 - 1) :
    readContent contentLength input =
      (if 0 < contentLength ∧ contentLength ≤ maxLength
        then some (input.stream.rest.take contentLength) else none,
        { input with stream := .ofBytes (input.stream.rest.drop contentLength) }) := by
  unfold readContent
  by_cases hlarge : maxLength < contentLength
  · have hnot : ¬ (0 < contentLength ∧ contentLength ≤ maxLength) := by omega
    rw [if_pos hlarge, if_neg hnot, ignoreLength, if_pos hbounded,
      Input.ignore_enough hgood hlength]
  · rw [if_neg hlarge]
    by_cases hpos : 0 < contentLength
    · have hboth : 0 < contentLength ∧ contentLength ≤ maxLength := by omega
      rw [if_pos hpos, if_pos hboth, Input.read_enough hgood hlength]
      rfl
    · have hzero : contentLength = 0 := by omega
      subst hzero
      rw [if_neg hpos, if_neg (fun h => hpos h.1), List.drop_zero, ← Istream.eq_ofBytes hgood]

/-- What is cut off is no message, and the session ends behind it. -/
theorem readContent_short
    (hlength : contentLength < 2 ^ 63 - 1 → input.stream.rest.length < contentLength)
    (hbounded : contentLength < 2 ^ 63) :
    (readContent contentLength input).1 = none ∧
      (readContent contentLength input).2.good = false := by
  unfold readContent
  by_cases hlarge : maxLength < contentLength
  · rw [if_pos hlarge]
    refine ⟨rfl, ?_⟩
    unfold ignoreLength
    by_cases hlimit : contentLength < 2 ^ 63 - 1
    · rw [if_pos hlimit]
      exact Input.good_ignore_short (hlength hlimit)
    · have hmax : contentLength = 2 ^ 63 - 1 := by omega
      rw [if_neg hlimit, if_pos hmax]
      exact Input.good_ignore_short (Nat.lt_succ_self _)
  · have hlimit : contentLength < 2 ^ 63 - 1 := by
      unfold maxLength at hlarge
      omega
    have hshort := hlength hlimit
    rw [if_neg hlarge, if_pos (Nat.zero_lt_of_lt hshort)]
    dsimp only
    rw [if_pos (Input.fail_read_short hshort)]
    exact ⟨rfl, Input.good_of_fail (Input.fail_read_short hshort)⟩

/-- Such a length is a negative count for `ignore`. -/
theorem readContent_huge (hgood : input.good = true) (h : 2 ^ 63 ≤ contentLength) :
    readContent contentLength input = (none, input) := by
  have hlarge : maxLength < contentLength := by
    unfold maxLength
    omega
  have hlimit : ¬ contentLength < 2 ^ 63 - 1 := by omega
  have hmax : ¬ contentLength = 2 ^ 63 - 1 := by omega
  rw [readContent, if_pos hlarge, ignoreLength, if_neg hlimit, if_neg hmax,
    Input.ignore_enough hgood (Nat.zero_le _), List.drop_zero, ← Istream.eq_ofBytes hgood]

theorem readContent_not_good (hgood : input.good = false) :
    (readContent contentLength input).1 = none ∧
      (readContent contentLength input).2.good = false := by
  have hread : ∀ n,
      input.read n = ([], { input with stream := { input.stream with fail := true } }) := by
    intro n
    have hstream : input.stream.read n = ([], { input.stream with fail := true }) := by
      rw [Istream.read, show input.stream.good = false from hgood]
      rfl
    rw [Input.read, hstream, Input.extracted_eq (by rw [hgood]; rfl)]
  have hignore : ∀ n, (input.ignore n).good = false := by
    intro n
    rw [Input.ignore, Input.good_extracted, Istream.ignore,
      show input.stream.good = false from hgood]
    exact Istream.not_good_fail _ _
  unfold readContent ignoreLength
  split
  · refine ⟨rfl, ?_⟩
    split
    · exact hignore _
    · split <;> exact hignore _
  · split
    · rw [hread]
      exact ⟨rfl, Istream.not_good_fail _ _⟩
    · exact ⟨rfl, hgood⟩

/-! ## Behind the last message -/

/-- Nothing is obtained any more: the stream is not good, or the last line has no end. -/
def Reading.Ended : Reading → Prop
  | outside input => input.good = false
  | header _ input => input.good = false ∨ (ch '\n' ∉ input.stream.rest ∧ input.later = [])
  | content _ input => input.good = false
  | thrown _ => True

/-- What a line does to the loop does not depend on what is behind it. -/
theorem lineRound_uniform (contentLength : Nat) (line : Bytes) :
    (∃ length, ∀ input, lineRound contentLength line input = .again length input) ∨
      (∀ input, lineRound contentLength line input = .done contentLength input) ∨
      ∃ fault, ∀ input, lineRound contentLength line input = .thrown fault := by
  unfold lineRound
  cases contentLengthMatch (stripCarriageReturn line) with
  | none =>
    by_cases hline : stripCarriageReturn line ≠ []
    · exact .inl ⟨contentLength, fun _ => if_pos hline⟩
    · exact .inr (.inl fun _ => if_neg hline)
  | some digits =>
    dsimp only
    cases stoull digits with
    | ok length => exact .inl ⟨length, fun _ => rfl⟩
    | error error => exact .inr (.inr ⟨_, fun _ => rfl⟩)

/-- The state behind a round. -/
def HeaderRound.next : HeaderRound → Reading
  | again contentLength input => .header contentLength input
  | done contentLength input => .content contentLength input
  | thrown fault => .thrown fault

theorem readingStep_round (contentLength : Nat) (input : Input) :
    ReadingStep (.header contentLength input) (.round (headerFault contentLength input))
      (headerRound contentLength input).next := by
  cases hround : headerRound contentLength input with
  | again _ _ => exact .again hround
  | done _ _ => exact .done hround
  | thrown _ => exact .thrown hround

theorem round_inv (h : ReadingStep (.header contentLength input) action s') :
    action.messages = [] ∧ s' = (headerRound contentLength input).next := by
  obtain ⟨haction, hs'⟩ := h.deterministic (readingStep_round contentLength input)
  rw [haction, hs']
  exact ⟨rfl, rfl⟩

theorem content_inv (h : ReadingStep (.content contentLength input) action s') :
    action.messages = [(readContent contentLength input).1].reduceOption ∧
      s' = .outside (readContent contentLength input).2 := by
  cases h
  exact ⟨rfl, rfl⟩

theorem ended_round (hinput : Reading.Ended (.header contentLength input)) :
    (headerRound contentLength input).next.Ended := by
  cases hgood : input.good with
  | false =>
    rw [headerRound_not_good hgood]
    exact hgood
  | true =>
    obtain ⟨hrest, hlater⟩ := hinput.resolve_left (by rw [hgood]; exact Bool.false_ne_true.symm)
    obtain ⟨stream, later, interrupted⟩ := input
    have hstream : stream = .ofBytes stream.rest := Istream.eq_ofBytes hgood
    dsimp only at hrest hlater hstream
    rw [hstream, hlater]
    cases interrupted with
    | true =>
      rw [headerRound_retried hrest rfl rfl]
      exact .inr ⟨List.not_mem_nil, rfl⟩
    | false =>
      have hround := headerRound_last hrest contentLength
      rw [Input.ofBytes] at hround
      have hbad : Input.good ⟨⟨[], true, stream.rest == []⟩, [], false⟩ = false := rfl
      rw [hround]
      rcases lineRound_uniform contentLength stream.rest with ⟨_, h⟩ | h | ⟨_, h⟩
      · rw [h]
        exact .inl hbad
      · rw [h]
        exact hbad
      · rw [h]
        exact trivial

theorem ReadingStep.ended (h : ReadingStep s action s') (hs : s.Ended) :
    action.messages = [] ∧ s'.Ended := by
  cases s with
  | outside input =>
    cases h with
    | call hgood => exact absurd (hgood.symm.trans hs) Bool.false_ne_true.symm
  | header contentLength input =>
    obtain ⟨hmessages, hs'⟩ := round_inv h
    rw [hs']
    exact ⟨hmessages, ended_round hs⟩
  | content contentLength input =>
    obtain ⟨hmessages, hs'⟩ := content_inv h
    obtain ⟨hnone, hgood⟩ := @readContent_not_good _ contentLength hs
    rw [hmessages, hs', hnone]
    exact ⟨rfl, hgood⟩
  | thrown _ => cases h

theorem silent_of_ended (hs : s.Ended) : Silent ReadingStep ReadAction.messages s := by
  rintro _ ⟨actions, s', hrun, rfl⟩
  induction hrun with
  | nil _ => rfl
  | cons step _ ih =>
    obtain ⟨hmessages, hs'⟩ := step.ended hs
    rw [List.flatMap_cons, hmessages, ih hs']
    rfl

/-! ## With and without interruptions -/

/-- What is left of the segments is what is left of the one piece. -/
structure Together (input input' : Input) : Prop where
  good : input.good = true
  stream : input'.stream = .ofBytes (input.stream.rest ++ input.later.flatten)
  later : input'.later = []

theorem Together.good' (h : Together input input') : input'.good = true := by
  rw [Input.good, h.stream]
  rfl

inductive Agrees : Reading → Reading → Prop where
  | outside {input input' : Input} (h : Together input input') :
      Agrees (.outside input) (.outside input')
  | header {input input' : Input} (contentLength : Nat) (h : Together input input') :
      Agrees (.header contentLength input) (.header contentLength input')
  | content {input input' : Input} (contentLength : Nat) (h : Together input input') :
      Agrees (.content contentLength input) (.content contentLength input')
  | thrown (fault : Fault) : Agrees (.thrown fault) (.thrown fault)
  | ended {input input' : Input} (h : input.good = false) (h' : input'.good = false) :
      Agrees (.outside input) (.outside input')

/-- The segments that are left. -/
def Reading.segments : Reading → Nat
  | header _ input => input.later.length
  | _ => 0

theorem agrees_line {later : List Bytes} {rest : Bytes} {interrupted interrupted' : Bool}
    (contentLength : Nat) (line : Bytes) :
    Agrees (lineRound contentLength line ⟨.ofBytes rest, later, interrupted⟩).next
      (lineRound contentLength line ⟨.ofBytes (rest ++ later.flatten), [], interrupted'⟩).next := by
  have htogether : Together ⟨.ofBytes rest, later, interrupted⟩
      ⟨.ofBytes (rest ++ later.flatten), [], interrupted'⟩ := ⟨rfl, rfl, rfl⟩
  rcases lineRound_uniform contentLength line with ⟨length, h⟩ | h | ⟨fault, h⟩
  · rw [h, h]
    exact .header length htogether
  · rw [h, h]
    exact .content contentLength htogether
  · rw [h, h]
    exact .thrown fault

/-- A round of the one goes with a round of the other, or is an interruption that takes nothing, or
both have met the last line. -/
theorem agrees_round (h : Together input input')
    (hwhole : Reading.Whole (.header contentLength input)) :
    (Agrees (headerRound contentLength input).next (.header contentLength input') ∧
      (headerRound contentLength input).next.segments < input.later.length) ∨
    Agrees (headerRound contentLength input).next (headerRound contentLength input').next ∨
    (Reading.Ended (.header contentLength input) ∧
      Reading.Ended (.header contentLength input')) := by
  obtain ⟨stream, later, interrupted⟩ := input
  obtain ⟨stream', later', interrupted'⟩ := input'
  obtain ⟨hgood, hstream', hlater'⟩ := h
  dsimp only at hstream' hlater'
  subst hstream' hlater'
  rcases Input.line_or_not_mem hgood with ⟨line, rest, hline, heq⟩ | ⟨rest, hrest, heq⟩
  · -- A whole line is the same line in the one piece.
    refine .inr (.inl ?_)
    cases heq
    have hpiece : (line ++ ch '\n' :: rest) ++ later.flatten =
        line ++ ch '\n' :: (rest ++ later.flatten) := by simp
    rw [Istream.rest_ofBytes, hpiece, headerRound_complete hline, headerRound_complete hline]
    exact agrees_line contentLength line
  · cases heq
    cases later with
    | nil =>
      refine .inr (.inr ⟨.inr ⟨hrest, rfl⟩, .inr ⟨?_, rfl⟩⟩)
      rw [List.flatten_nil, List.append_nil]
      exact hrest
    | cons next later =>
      have hnil : rest = [] :=
        (hwhole hgood (List.cons_ne_nil _ _)).resolve_right hrest
      subst hnil
      refine .inl ?_
      rw [headerRound_retried List.not_mem_nil rfl rfl]
      exact ⟨.header contentLength ⟨rfl, rfl, rfl⟩, Nat.lt_succ_self _⟩

theorem agrees_content (h : Together input input')
    (hwhole : Reading.Whole (.content contentLength input)) :
    (readContent contentLength input).1 = (readContent contentLength input').1 ∧
      Agrees (.outside (readContent contentLength input).2)
        (.outside (readContent contentLength input').2) := by
  have hrest : input'.stream.rest = input.stream.rest ++ input.later.flatten := by
    rw [h.stream]
    rfl
  have hlength :
      input'.stream.rest.length = input.stream.rest.length + input.later.flatten.length := by
    rw [hrest, List.length_append]
  by_cases hhuge : 2 ^ 63 ≤ contentLength
  · rw [readContent_huge h.good hhuge, readContent_huge h.good' hhuge]
    exact ⟨rfl, .outside h⟩
  · by_cases henough : contentLength < 2 ^ 63 - 1 ∧ contentLength ≤ input.stream.rest.length
    · obtain ⟨hbounded, hle⟩ := henough
      have hle' : contentLength ≤ input'.stream.rest.length := by omega
      rw [readContent_enough h.good hle hbounded, readContent_enough h.good' hle' hbounded, hrest,
        List.take_append_of_le_length hle, List.drop_append_of_le_length hle]
      exact ⟨rfl, .outside ⟨rfl, rfl, h.later⟩⟩
    · -- Neither has the content.
      have hshort : contentLength < 2 ^ 63 - 1 → input'.stream.rest.length < contentLength := by
        intro hbounded
        by_cases hlater : input.later = []
        · rw [hlater, List.flatten_nil, List.length_nil] at hlength
          omega
        · rcases hwhole h.good hlater hbounded with hle | hlt
          · exact absurd ⟨hbounded, hle⟩ henough
          · omega
      have hshort' : contentLength < 2 ^ 63 - 1 → input.stream.rest.length < contentLength := by
        intro hbounded
        have hlt := hshort hbounded
        omega
      obtain ⟨hnone, hgood⟩ := readContent_short hshort' (Nat.lt_of_not_le hhuge)
      obtain ⟨hnone', hgood'⟩ := readContent_short hshort (Nat.lt_of_not_le hhuge)
      rw [hnone, hnone']
      exact ⟨rfl, .ended hgood hgood'⟩

/-- The reader that is interrupted between lines alone simulates the one that is not. -/
theorem interruptions_simulation :
    Simulation ReadingStep ReadAction.messages ReadingStep ReadAction.messages
      (fun s t => Agrees s t ∧ Run.Always ReadingStep Reading.Whole s) Reading.segments where
  step := by
    rintro s t action s' ⟨hagrees, hwhole⟩ hstep
    have hwhole' := hwhole.step hstep
    cases hagrees with
    | outside h =>
      cases hstep with
      | call _ => exact .inr (.inl ⟨.call, _, .call h.good', rfl, .header 0 h, hwhole'⟩)
    | header contentLength h =>
      obtain ⟨hmessages, hs'⟩ := round_inv hstep
      subst hs'
      rcases agrees_round h hwhole.here with ⟨hnext, hlt⟩ | hnext | ⟨hended, hended'⟩
      · exact .inl ⟨hmessages, ⟨hnext, hwhole'⟩, hlt⟩
      · exact .inr (.inl ⟨_, _, readingStep_round _ _, hmessages.symm, hnext, hwhole'⟩)
      · exact .inr (.inr ⟨hmessages, silent_of_ended (ended_round hended), silent_of_ended hended'⟩)
    | content contentLength h =>
      obtain ⟨hmessages, hs'⟩ := content_inv hstep
      subst hs'
      obtain ⟨hsame, hnext⟩ := agrees_content h hwhole.here
      refine .inr (.inl ⟨_, _, .content contentLength _, ?_, hnext, hwhole'⟩)
      rw [hmessages, hsame]
      rfl
    | thrown _ => cases hstep
    | ended hgood _ =>
      cases hstep with
      | call hgood' => exact absurd (hgood.symm.trans hgood') Bool.false_ne_true
  enabled := by
    rintro s t action t' ⟨hagrees, _⟩ hstep
    cases hagrees with
    | outside h => exact ⟨_, _, .call h.good⟩
    | header contentLength h => exact ⟨_, _, readingStep_round _ _⟩
    | content contentLength h => exact ⟨_, _, .content _ _⟩
    | thrown _ => cases hstep
    | ended _ hgood =>
      cases hstep with
      | call hgood' => exact absurd (hgood.symm.trans hgood') Bool.false_ne_true

/-- Where every interruption comes between lines, the messages that `run` obtains are those it
obtains without interruptions. -/
theorem interruptions_lose_nothing (first : Bytes) (later : List Bytes) (interrupted : Bool)
    (h : Run.Always ReadingStep Reading.Whole (.outside (interruptedInput first later interrupted)))
    (messages : List Bytes) :
    Obtains (interruptedInput first later interrupted) messages ↔
      Obtains (.ofBytes (first ++ later.flatten) interrupted) messages :=
  interruptions_simulation.showsAll_iff (fun _ _ _ _ _ h₁ h₂ => h₁.deterministic h₂)
    ⟨.outside ⟨rfl, rfl, rfl⟩, h⟩ messages

/-! ## The messages of an input -/

/-- What is left to read. -/
def Reading.size : Reading → Nat
  | outside input | header _ input | content _ input => input.size
  | thrown _ => 0

theorem size_retried_le (hgood : input.good = true) : input.retried.size ≤ input.size := by
  rw [Input.size_of_good hgood]
  unfold Input.retried
  cases input.later with
  | nil =>
    rw [Input.size_of_good rfl]
    exact Nat.add_le_add_right (Nat.le_add_left _ _) _
  | cons next later =>
    rw [Input.size_of_good rfl, List.flatten_cons, List.length_append, List.length_cons]
    dsimp only [Istream.rest_ofBytes]
    omega

theorem size_round_le (contentLength : Nat) (input : Input) :
    (headerRound contentLength input).next.size ≤ input.size := by
  cases hgood : input.good with
  | false =>
    rw [headerRound_not_good hgood]
    exact Nat.le_refl _
  | true =>
    rcases headerRound_cases hgood with ⟨line, input', _, hlt, _, hround⟩ | ⟨_, _, _, hround⟩
    · rw [hround]
      rcases lineRound_uniform contentLength line with ⟨_, h⟩ | h | ⟨_, h⟩
      · rw [h]
        exact Nat.le_of_lt hlt
      · rw [h]
        exact Nat.le_of_lt hlt
      · rw [h]
        exact Nat.zero_le _
    · rw [hround]
      exact size_retried_le hgood

/-- A message takes at least one byte. -/
theorem size_content_le (contentLength : Nat) (input : Input) :
    [(readContent contentLength input).1].reduceOption.length +
      (readContent contentLength input).2.size ≤ input.size := by
  have hended : (readContent contentLength input).1 = none ∧
      (readContent contentLength input).2.good = false →
      [(readContent contentLength input).1].reduceOption.length +
        (readContent contentLength input).2.size ≤ input.size := by
    rintro ⟨hnone, hgood⟩
    rw [hnone, Input.size_not_good hgood]
    exact Nat.zero_le _
  cases hgood : input.good with
  | false => exact hended (readContent_not_good hgood)
  | true =>
    by_cases hhuge : 2 ^ 63 ≤ contentLength
    · rw [readContent_huge hgood hhuge]
      exact Nat.le_of_eq (Nat.zero_add _)
    · by_cases henough : contentLength < 2 ^ 63 - 1 ∧ contentLength ≤ input.stream.rest.length
      · obtain ⟨hbounded, hle⟩ := henough
        have hsize :
            Input.size { input with stream := .ofBytes (input.stream.rest.drop contentLength) } +
              contentLength = input.size := by
          rw [Input.size_of_good hgood, Input.size_of_good rfl, Istream.rest_ofBytes,
            List.length_drop]
          dsimp only
          omega
        rw [readContent_enough hgood hle hbounded]
        dsimp only
        split
        · next h =>
          rw [← hsize, Nat.add_comm]
          exact Nat.add_le_add_left h.1 _
        · exact (Nat.zero_add _).trans_le (Nat.le.intro hsize)
      · exact hended (readContent_short (fun h => Nat.lt_of_not_le fun hle => henough ⟨h, hle⟩)
          (Nat.lt_of_not_le hhuge))

theorem ReadingStep.size_le (h : ReadingStep s action s') :
    action.messages.length + s'.size ≤ s.size := by
  cases s with
  | outside input =>
    cases h
    exact Nat.le_of_eq (Nat.zero_add _)
  | header contentLength input =>
    obtain ⟨hmessages, hs'⟩ := round_inv h
    rw [hmessages, hs']
    exact (Nat.zero_add _).trans_le (size_round_le contentLength input)
  | content contentLength input =>
    obtain ⟨hmessages, hs'⟩ := content_inv h
    rw [hmessages, hs']
    exact size_content_le contentLength input
  | thrown _ => cases h

/-- Every input has its messages. -/
theorem obtains_existsUnique (input : Input) : ∃! messages, Obtains input messages := by
  have hbound : ∀ messages, Shows ReadingStep ReadAction.messages (.outside input) messages →
      messages.length ≤ input.size := by
    rintro _ ⟨actions, s, hrun, rfl⟩
    have hle : ∀ s s' actions, Run ReadingStep s actions s' →
        (actions.flatMap ReadAction.messages).length + s'.size ≤ s.size := by
      intro s s' actions hrun
      induction hrun with
      | nil s => exact Nat.le_of_eq (Nat.zero_add _)
      | cons step _ ih =>
        have hstep := step.size_le
        rw [List.flatMap_cons, List.length_append]
        omega
    exact (Nat.le_add_right _ _).trans (hle _ _ _ hrun)
  obtain ⟨messages, hmessages⟩ := exists_showsAll hbound
  exact ⟨messages, hmessages,
    fun _ h => h.unique (fun _ _ _ _ _ h₁ h₂ => h₁.deterministic h₂) hmessages⟩

/-! ## Inputs that are not interrupted -/

/-- The segments behind the one that is read. -/
def Reading.later : Reading → List Bytes
  | outside input | header _ input | content _ input => input.later
  | thrown _ => []

theorem later_extracted (h : input.later = []) (stream : Istream) :
    (input.extracted stream).later = [] := by
  rw [Input.extracted, h]

theorem ReadingStep.later (h : ReadingStep s action s') (hs : s.later = []) : s'.later = [] := by
  cases s with
  | outside input =>
    cases h
    exact hs
  | header contentLength input =>
    obtain ⟨_, hs'⟩ := round_inv h
    rw [hs', headerRound]
    have hgetline : input.getline.2.later = [] := later_extracted hs _
    split
    · dsimp only
      split
      · exact hgetline
      · split
        · split
          · exact hgetline
          · rfl
        · split
          · exact hgetline
          · exact hgetline
    · exact hs
  | content contentLength input =>
    obtain ⟨_, hs'⟩ := content_inv h
    rw [hs', readContent]
    have hignore : ∀ n, (input.ignore n).later = [] := fun n => later_extracted hs _
    have hread : (input.read contentLength).2.later = [] := later_extracted hs _
    split
    · unfold ignoreLength
      split
      · exact hignore _
      · split
        · exact hignore _
        · exact hignore _
    · split
      · dsimp only
        split
        · exact hread
        · exact hread
      · exact hs
  | thrown _ => cases h

/-- Without interruptions the condition holds. -/
theorem always_whole (hs : s.later = []) : Run.Always ReadingStep Reading.Whole s := by
  intro actions s' hrun
  have hlater : s'.later = [] :=
    hrun.invariant (I := fun s => s.later = []) (fun _ _ _ hs step => step.later hs) hs
  cases s' with
  | outside _ | thrown _ => exact trivial
  | header _ _ | content _ _ => exact fun _ hne => absurd hlater hne

/-- A message that is interrupted before the last line of its header. -/
theorem interruptions_lose_nothing_between :
    Obtains (interruptedInput (str "Content-Length: 2\r\n") [str "\r\n[]"] false) [str "[]"] ↔
      Obtains (.ofBytes (str "Content-Length: 2\r\n\r\n[]") false) [str "[]"] := by
  refine interruptions_lose_nothing (str "Content-Length: 2\r\n") [str "\r\n[]"] false ?_ [str "[]"]
  refine .intro trivial fun _ _ hcall => ?_
  cases hcall
  refine .intro (fun _ _ => .inr (by decide)) fun _ _ hline => ?_
  obtain ⟨_, rfl⟩ := round_inv hline
  refine .intro (fun _ _ => .inl rfl) fun _ _ hretry => ?_
  obtain ⟨_, rfl⟩ := round_inv hretry
  exact always_whole rfl

/-- A line and a content that are interrupted are lost. -/
theorem interruptions_lose_messages :
    (Obtains (.ofBytes (str "Content-Length: 2\r\n\r\n[]") false) [str "[]"] ∧
      Obtains (interruptedInput (str "Content-") [str "Length: 2\r\n\r\n[]"] false) [] ∧
      Obtains (interruptedInput (str "Content-Length: 2\r\n\r\n[") [str "]"] false) []) := by
  have hdet : ∀ s a b s₁ s₂, ReadingStep s a s₁ → ReadingStep s b s₂ → a = b ∧ s₁ = s₂ :=
    fun _ _ _ _ _ h₁ h₂ => h₁.deterministic h₂
  refine ⟨?_, ?_, ?_⟩
  · have hrun : Run ReadingStep (.outside (.ofBytes (str "Content-Length: 2\r\n\r\n[]") false))
        [.call, .round none, .round none, .content (some (str "[]")), .call]
        (.header 0 (.ofBytes [] false)) :=
      .cons (.call rfl) <| .cons (.again rfl) <| .cons (.done rfl) <|
        .cons (.content 2 (.ofBytes (str "[]") false)) <| .cons (.call rfl) <| .nil _
    exact showsAll_of_silent hdet hrun (silent_of_ended (.inr ⟨List.not_mem_nil, rfl⟩))
  · have hrun : Run ReadingStep
        (.outside (interruptedInput (str "Content-") [str "Length: 2\r\n\r\n[]"] false))
        [.call, .round none, .round none, .round none, .content none, .call]
        (.header 0 (.ofBytes (str "[]") true)) :=
      .cons (.call rfl) <| .cons (.again rfl) <| .cons (.again rfl) <| .cons (.done rfl) <|
        .cons (.content 0 (.ofBytes (str "[]") true)) <| .cons (.call rfl) <| .nil _
    exact showsAll_of_silent hdet hrun (silent_of_ended (.inr ⟨by decide, rfl⟩))
  · have hrun : Run ReadingStep
        (.outside (interruptedInput (str "Content-Length: 2\r\n\r\n[") [str "]"] false))
        [.call, .round none, .round none, .content none]
        (.outside ⟨⟨str "]", true, true⟩, [], true⟩) :=
      .cons (.call rfl) <| .cons (.again rfl) <| .cons (.done rfl) <|
        .cons (.content 2 (interruptedInput (str "[") [str "]"] false)) <| .nil _
    exact showsAll_of_silent hdet hrun (silent_of_ended rfl)

end P4LS
