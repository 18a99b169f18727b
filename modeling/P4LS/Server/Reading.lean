import P4LS.Library.Stream
import P4LS.Unit.File

/-!
# Reading messages

`read_message` reads the header lines of a message up to an empty line and then
as many bytes as the last `Content-Length` line said.  Its loop over the lines
may go on for ever, so it runs on fuel; `ReadStep` is a call that comes back.
-/

namespace P4LS

open Bytes

/-- One carriage return at the end of a line is dropped. -/
def stripCarriageReturn (line : Bytes) : Bytes :=
  if line.getLast? = some (ch '\r') then line.dropLast else line

def contentLengthPrefix : Bytes := str "Content-Length: "

/-- The first group of a match with `Content-Length: ([0-9]+)`. -/
def contentLengthMatch (line : Bytes) : Option Bytes :=
  if contentLengthPrefix.isPrefixOf line then
    let digits := line.drop contentLengthPrefix.length
    if digits ≠ [] ∧ digits.all isdigit then some digits else none
  else none

/-- The length of a message that is not worth reading. -/
def maxLength : Nat := 2 ^ 30

/-- `ignore` takes a signed count, of which the largest means no limit. -/
def ignoreLength (input : Input) (length : Nat) : Input :=
  if length < 2 ^ 63 - 1 then input.ignore length
  else if length = 2 ^ 63 - 1 then input.ignore (input.stream.rest.length + 1)
  else input.ignore 0

/-- One round of the loop over the header lines goes on, leaves the loop or
throws. -/
inductive HeaderRound where
  | again (contentLength : Nat) (input : Input)
  | done (contentLength : Nat) (input : Input)
  | thrown (fault : Fault)

/-- An empty line has no last character to look at, and none is dropped. -/
def headerRound (contentLength : Nat) (input : Input) : HeaderRound :=
  if input.good then
    let (line, input) := input.getline
    let line := stripCarriageReturn line
    if !input.good && input.interrupted then .again contentLength input.clear
    else
      match contentLengthMatch line with
      | some digits =>
        match stoull digits with
        | .ok length => .again length input
        | .error error => .thrown (.conversion error)
      | none => if line ≠ [] then .again contentLength input else .done contentLength input
  else .done contentLength input

/-- The content length after the header lines, and the input behind them. -/
def readHeader : Nat → Nat → Input → Option (Except Fault (Nat × Input))
  | 0, _, _ => none
  | fuel + 1, contentLength, input =>
    match headerRound contentLength input with
    | .again contentLength input => readHeader fuel contentLength input
    | .done contentLength input => some (.ok (contentLength, input))
    | .thrown fault => some (.error fault)

/-- What follows the header. -/
def readContent (contentLength : Nat) (input : Input) : Option Bytes × Input :=
  if maxLength < contentLength then
    (none, ignoreLength input contentLength)
  else if 0 < contentLength then
    let (content, input) := input.read contentLength
    if input.stream.fail then (none, input) else (some content, input)
  else (none, input)

def readMessage (fuel : Nat) (input : Input) : Option (Except Fault (Option Bytes × Input)) :=
  (readHeader fuel 0 input).map fun header =>
    header.map fun (contentLength, input) => readContent contentLength input

/-- A call of `read_message` that comes back. -/
def ReadStep (input : Input) (message : Option Bytes) (input' : Input) : Prop :=
  ∃ fuel, readMessage fuel input = some (.ok (message, input'))

/-! ## Fuel -/

/-- Fuel that is left over changes nothing. -/
theorem readHeader_succ {fuel contentLength : Nat} {input : Input}
    {result : Except Fault (Nat × Input)}
    (h : readHeader fuel contentLength input = some result) :
    readHeader (fuel + 1) contentLength input = some result := by
  induction fuel generalizing contentLength input with
  | zero => cases h
  | succ fuel ih =>
    rw [readHeader] at h ⊢
    cases hround : headerRound contentLength input with
    | again contentLength' input' =>
      rw [hround] at h
      exact ih h
    | done contentLength' input' =>
      rw [hround] at h
      exact h
    | thrown fault =>
      rw [hround] at h
      exact h

theorem readHeader_mono {fuel more contentLength : Nat} {input : Input}
    {result : Except Fault (Nat × Input)} (hle : fuel ≤ more)
    (h : readHeader fuel contentLength input = some result) :
    readHeader more contentLength input = some result := by
  induction hle with
  | refl => exact h
  | step _ ih => exact readHeader_succ ih

theorem readMessage_mono {fuel more : Nat} {input : Input}
    {result : Except Fault (Option Bytes × Input)} (hle : fuel ≤ more)
    (h : readMessage fuel input = some result) : readMessage more input = some result := by
  obtain ⟨header, hheader, hresult⟩ := Option.map_eq_some_iff.mp h
  exact Option.map_eq_some_iff.mpr ⟨header, readHeader_mono hle hheader, hresult⟩

/-- A call comes back with one message and one input. -/
theorem ReadStep.deterministic {input input₁ input₂ : Input} {message₁ message₂ : Option Bytes}
    (h₁ : ReadStep input message₁ input₁) (h₂ : ReadStep input message₂ input₂) :
    message₁ = message₂ ∧ input₁ = input₂ := by
  obtain ⟨fuel₁, h₁⟩ := h₁
  obtain ⟨fuel₂, h₂⟩ := h₂
  have hmax₁ := readMessage_mono (le_max_left fuel₁ fuel₂) h₁
  have hmax₂ := readMessage_mono (le_max_right fuel₁ fuel₂) h₂
  rw [hmax₁] at hmax₂
  cases hmax₂
  exact ⟨rfl, rfl⟩

end P4LS
