import P4LS.Server.HeaderLines

/-!
# The reading loop

The loop of `run` around `read_message`, round by round.  A round of the header
loop looks at the last character of its line before it asks whether the line has
one, and converts the digits of a length without a guard.
-/

namespace P4LS

open Bytes

/-! ## Rounds -/

/-- Where the reader stands: at the condition of the loop in `run`, at the one of the
header loop, before the content of a message, or behind an exception. -/
inductive Reading where
  | outside (input : Input)
  | header (contentLength : Nat) (input : Input)
  | content (contentLength : Nat) (input : Input)
  | thrown (fault : Fault)

/-- What goes wrong in a round: the last character of an empty line is asked for, or an
exception is thrown. -/
inductive HeaderFault where
  | backOfEmpty
  | exception (fault : Fault)

def headerFault (contentLength : Nat) (input : Input) : Option HeaderFault :=
  if input.good && input.getline.1 == [] then some .backOfEmpty
  else
    match headerRound contentLength input with
    | .thrown fault => some (.exception fault)
    | _ => none

inductive ReadAction where
  | call
  | round (fault : Option HeaderFault)
  | content (message : Option Bytes)

inductive ReadingStep : Reading → ReadAction → Reading → Prop where
  | call {input : Input} (good : input.good = true) :
      ReadingStep (.outside input) .call (.header 0 input)
  | again {contentLength contentLength' : Nat} {input input' : Input}
      (round : headerRound contentLength input = .again contentLength' input') :
      ReadingStep (.header contentLength input) (.round (headerFault contentLength input))
        (.header contentLength' input')
  | done {contentLength contentLength' : Nat} {input input' : Input}
      (round : headerRound contentLength input = .done contentLength' input') :
      ReadingStep (.header contentLength input) (.round (headerFault contentLength input))
        (.content contentLength' input')
  | thrown {contentLength : Nat} {input : Input} {fault : Fault}
      (round : headerRound contentLength input = .thrown fault) :
      ReadingStep (.header contentLength input) (.round (headerFault contentLength input))
        (.thrown fault)
  | content (contentLength : Nat) (input : Input) :
      ReadingStep (.content contentLength input)
        (.content (readContent contentLength input).1)
        (.outside (readContent contentLength input).2)

/-- What the calls gave. -/
def ReadAction.reads : ReadAction → List (Option Bytes)
  | content message => [message]
  | _ => []

variable {s s' s₁ s₂ : Reading} {action action₁ action₂ : ReadAction} {actions : List ReadAction}
  {input input' : Input} {contentLength : Nat}

/-- The reader takes one step at most. -/
theorem ReadingStep.deterministic (h₁ : ReadingStep s action₁ s₁) (h₂ : ReadingStep s action₂ s₂) :
    action₁ = action₂ ∧ s₁ = s₂ := by
  cases h₁ with
  | call _ =>
    cases h₂
    exact ⟨rfl, rfl⟩
  | content contentLength input =>
    cases h₂
    exact ⟨rfl, rfl⟩
  | again hround | done hround | thrown hround =>
    cases h₂ with
    | again hround' | done hround' | thrown hround' =>
      rw [hround] at hround'
      cases hround' <;> exact ⟨rfl, rfl⟩

/-- What `read_message` gives from here on, until the reader is back in `run` before an input. -/
def Reading.Reads : Reading → List (Option Bytes) → Input → Prop
  | outside input, reads, input' => Run ReadStep input reads input'
  | header contentLength input, reads, input' => ∃ length input₁ rest,
      Header contentLength input length input₁ ∧ reads = (readContent length input₁).1 :: rest ∧
        Run ReadStep (readContent length input₁).2 rest input'
  | content length input, reads, input' => ∃ rest, reads = (readContent length input).1 :: rest ∧
      Run ReadStep (readContent length input).2 rest input'
  | thrown _, _, _ => False

/-- The rounds up to the next return to `run` are one call of `read_message`. -/
theorem reading_reads (hrun : Run ReadingStep s actions s') (hend : s' = .outside input') :
    s.Reads (actions.flatMap ReadAction.reads) input' := by
  induction hrun with
  | nil s =>
    subst hend
    exact .nil _
  | cons step _ ih =>
    have ih := ih hend
    cases step with
    | call _ =>
      obtain ⟨length, input₁, rest, ⟨fuel, hfuel⟩, hreads, hrest⟩ := ih
      rw [List.flatMap_cons, hreads]
      refine .cons ⟨fuel, ?_⟩ hrest
      rw [readMessage, hfuel]
      rfl
    | again hround =>
      obtain ⟨length, input₁, rest, hheader, hreads, hrest⟩ := ih
      exact ⟨length, input₁, rest, .again hround hheader, hreads, hrest⟩
    | done hround =>
      obtain ⟨rest, hreads, hrest⟩ := ih
      exact ⟨_, _, rest, .done hround, hreads, hrest⟩
    | thrown _ => exact False.elim ih
    | content contentLength input => exact ⟨_, rfl, ih⟩

/-! ## Faults -/

def ReadAction.fault : ReadAction → Option HeaderFault
  | round fault => fault
  | _ => none

/-- The bytes in front of the next line end, or all there are. -/
def nextLine (input : Input) : Bytes := input.stream.rest.takeWhile (· != ch '\n')

/-- On a good stream the next line has a byte, and its length can be converted, unless the line is
dropped because it is not ended and the error number is that of an interruption. -/
def Reading.LineReady : Reading → Prop
  | header _ input => input.good = true →
      nextLine input ≠ [] ∧
        (ch '\n' ∈ input.stream.rest ∨ input.quiet = true → LengthFits (nextLine input))
  | _ => True

theorem getline_of_good (hgood : input.good = true) : input.getline.1 = nextLine input := by
  have hsplit : nextLine input ++ input.stream.rest.dropWhile (· != ch '\n') = input.stream.rest :=
    List.takeWhile_append_dropWhile
  rw [Input.getline, Istream.getline, show input.stream.good = true from hgood, if_pos rfl]
  cases hdrop : input.stream.rest.dropWhile (· != ch '\n') with
  | nil =>
    rw [hdrop, List.append_nil] at hsplit
    exact hsplit.symm
  | cons _ _ => rfl

theorem nextLine_complete {line rest : Bytes} {later : List Bytes} {interrupted : Bool}
    (h : ch '\n' ∉ line) :
    nextLine ⟨.ofBytes (line ++ ch '\n' :: rest), later, interrupted⟩ = line := by
  have hgetline := @getline_of_good ⟨.ofBytes (line ++ ch '\n' :: rest), later, interrupted⟩ rfl
  rw [← hgetline, Input.getline, Istream.getline_line h]

theorem nextLine_last {rest : Bytes} {later : List Bytes} {interrupted : Bool}
    (h : ch '\n' ∉ rest) : nextLine ⟨.ofBytes rest, later, interrupted⟩ = rest := by
  have hgetline := @getline_of_good ⟨.ofBytes rest, later, interrupted⟩ rfl
  rw [← hgetline, Input.getline, Istream.getline_last h]

theorem lineRound_thrown_iff {line : Bytes} :
    (∃ fault, lineRound contentLength line input = .thrown fault) ↔ ¬ LengthFits line := by
  by_cases hline : stripCarriageReturn line = []
  · have hfits : LengthFits line := by
      intro digits hmatch
      rw [hline] at hmatch
      cases hmatch
    rw [lineRound_empty hline]
    exact iff_of_false (fun ⟨_, h⟩ => by cases h) (not_not_intro hfits)
  · rcases lineRound_cases hline contentLength input with ⟨hfits, length, hagain⟩ | ⟨hfits, hthrown⟩
    · rw [hagain]
      exact iff_of_false (fun ⟨_, h⟩ => by cases h) (not_not_intro hfits)
    · exact iff_of_true hthrown hfits

/-- A round throws where it looks at a line with a length that cannot be converted. -/
theorem headerRound_thrown_iff (hgood : input.good = true) :
    (∃ fault, headerRound contentLength input = .thrown fault) ↔
      ¬ (ch '\n' ∈ input.stream.rest ∨ input.quiet = true → LengthFits (nextLine input)) := by
  obtain ⟨stream, later, interrupted⟩ := input
  rcases Input.line_or_not_mem hgood with ⟨line, rest, hline, heq⟩ | ⟨rest, hrest, heq⟩
  · have hmem : ch '\n' ∈ line ++ ch '\n' :: rest :=
      List.mem_append_right _ List.mem_cons_self
    rw [heq, headerRound_complete hline, lineRound_thrown_iff, nextLine_complete hline]
    exact not_congr ⟨fun h _ => h, fun h => h (.inl hmem)⟩
  · rw [heq, nextLine_last hrest]
    cases hquiet : Input.quiet ⟨.ofBytes rest, later, interrupted⟩ with
    | true =>
      obtain ⟨hlater, hinterrupted⟩ := Input.of_quiet hquiet
      subst hlater hinterrupted
      have hround := headerRound_last hrest contentLength
      rw [Input.ofBytes] at hround
      rw [hround, lineRound_thrown_iff]
      exact not_congr ⟨fun h _ => h, fun h => h (.inr rfl)⟩
    | false =>
      rw [headerRound_retried hrest rfl hquiet]
      refine iff_of_false (fun h => ?_) (not_not_intro fun h => ?_)
      · obtain ⟨_, h⟩ := h
        cases h
      · exact absurd (h.resolve_left hrest) Bool.false_ne_true

theorem headerFault_eq_none_iff :
    headerFault contentLength input = none ↔ Reading.LineReady (.header contentLength input) := by
  cases hgood : input.good with
  | false =>
    rw [headerFault, hgood, headerRound_not_good hgood]
    exact iff_of_true rfl fun h => absurd (hgood.symm.trans h) Bool.false_ne_true
  | true =>
    have hready : Reading.LineReady (.header contentLength input) ↔ nextLine input ≠ [] ∧
        ¬ ∃ fault, headerRound contentLength input = .thrown fault := by
      rw [headerRound_thrown_iff hgood, not_not]
      exact ⟨fun h => h hgood, fun h _ => h⟩
    rw [hready, headerFault, hgood, getline_of_good hgood, Bool.true_and]
    by_cases hline : nextLine input = []
    · rw [hline]
      exact iff_of_false (fun h => by cases h) fun h => h.1 rfl
    · rw [if_neg (by simpa using hline)]
      cases hround : headerRound contentLength input with
      | thrown fault =>
        exact iff_of_false (fun h => by cases h) fun h => h.2 ⟨fault, rfl⟩
      | again _ _ | done _ _ =>
        exact iff_of_true rfl ⟨hline, fun ⟨_, h⟩ => by cases h⟩

theorem ReadingStep.fault_eq_none_iff (h : ReadingStep s action s') :
    action.fault = none ↔ s.LineReady := by
  cases h with
  | again _ | done _ | thrown _ => exact headerFault_eq_none_iff
  | call _ | content _ _ => exact iff_of_true rfl trivial

/-- No round of the calls that `run` makes asks for the last character of an empty line or throws,
if and only if every round finds a line with a byte, and no length that cannot be converted. -/
theorem read_message_faultless_iff (hrun : Run ReadingStep (.outside input) actions s) :
    (∀ action ∈ actions, action.fault = none) ↔
      Run.Throughout ReadingStep Reading.LineReady (.outside input) actions :=
  Run.forall_label_iff (fun _ _ _ _ h₁ h₂ => (h₁.deterministic h₂).2)
    (fun _ _ _ step => step.fault_eq_none_iff) hrun

/-- One call over one message. -/
theorem read_message_faultless_frame :
    Run.Throughout ReadingStep Reading.LineReady (.outside (.ofBytes (frame (str "[]")) false))
      [.call, .round none, .round none, .content (some (str "[]"))] := by
  have hrun : ∃ s, Run ReadingStep (.outside (.ofBytes (frame (str "[]")) false))
      [.call, .round none, .round none, .content (some (str "[]"))] s :=
    ⟨_, .cons (.call rfl) <| .cons (.again rfl) <| .cons (.done rfl) <|
      .cons (.content 2 (.ofBytes (str "[]") false)) <| .nil _⟩
  obtain ⟨s, hrun⟩ := hrun
  exact (read_message_faultless_iff hrun).mp (by simp [ReadAction.fault])

/-- Behind a message the input ends, and a length can be too long for its type. -/
theorem read_message_faults :
    (∃ actions s, Run ReadingStep (.outside (.ofBytes (frame (str "[]")) false)) actions s ∧
      .round (some .backOfEmpty) ∈ actions) ∧
    (∃ actions s, Run ReadingStep
        (.outside (.ofBytes (str "Content-Length: 18446744073709551616\r\n\r\n[]") false))
        actions s ∧
      .round (some (.exception (.conversion .outOfRange))) ∈ actions) := by
  constructor
  · exact ⟨[.call, .round none, .round none, .content (some (str "[]")), .call,
      .round (some .backOfEmpty)], _, .cons (.call rfl) <| .cons (.again rfl) <|
      .cons (.done rfl) <| .cons (.content 2 (.ofBytes (str "[]") false)) <| .cons (.call rfl) <|
      .cons (.done rfl) <| .nil _, by simp⟩
  · exact ⟨[.call, .round (some (.exception (.conversion .outOfRange)))], _,
      .cons (.call rfl) <| .cons (.thrown rfl) <| .nil _, by simp⟩

end P4LS
