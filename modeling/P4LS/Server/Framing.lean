import P4LS.Library.Run
import P4LS.Server.Reading
import P4LS.Server.World

/-!
# Framing

A frame is a header with one `Content-Length` line and any number of others, an
empty line and a body of the length the header says.  Reading a sequence of
frames takes one frame for each call and gives the bodies, and what `send`
writes is such a sequence.
-/

namespace P4LS

open Bytes

/-! ## Frames -/

/-- A header line, without its line end, that says nothing about the length. -/
structure OtherLine where
  raw : Bytes
  oneLine : ch '\n' ∉ raw
  nonempty : stripCarriageReturn raw ≠ []
  other : contentLengthMatch (stripCarriageReturn raw) = none

/-- The header lines stand before and after the one with the length, and each of
them may end with a carriage return. -/
structure Frame where
  before : List OtherLine
  digits : Bytes
  carriageReturn : Bool
  after : List OtherLine
  body : Bytes
  digits_ne : digits ≠ []
  digits_all : ∀ c ∈ digits, isdigit c = true
  length : digitsValue 10 digits 0 = body.length
  bounded : body.length < 2 ^ 63 - 1

def linesBytes (lines : List OtherLine) : Bytes := lines.flatMap fun line => line.raw ++ [ch '\n']

/-- The line with the length, without its line end. -/
def Frame.lengthLine (f : Frame) : Bytes :=
  contentLengthPrefix ++ f.digits ++ (if f.carriageReturn then [ch '\r'] else [])

def Frame.bytes (f : Frame) : Bytes :=
  linesBytes f.before ++ (f.lengthLine ++ [ch '\n']) ++ linesBytes f.after ++ str "\r\n" ++ f.body

/-- The body, unless it is empty or too long. -/
def Frame.message (f : Frame) : Option Bytes :=
  if 0 < f.body.length ∧ f.body.length ≤ maxLength then some f.body else none

/-! ## Rounds of the header loop -/

variable {interrupted : Bool}

theorem getLast?_of_digits {digits : Bytes} (hne : digits ≠ [])
    (hall : ∀ c ∈ digits, isdigit c = true) (lead : Bytes) :
    (lead ++ digits).getLast? ≠ some (ch '\r') := by
  rw [List.getLast?_append_of_ne_nil _ hne]
  intro h
  have hdigit := hall _ (List.mem_of_getLast? h)
  exact absurd hdigit (by decide)

theorem stripCarriageReturn_append (line : Bytes) :
    stripCarriageReturn (line ++ [ch '\r']) = line := by
  rw [stripCarriageReturn, List.getLast?_concat, if_pos rfl, List.dropLast_concat]

theorem Frame.strip_lengthLine (f : Frame) :
    stripCarriageReturn f.lengthLine = contentLengthPrefix ++ f.digits := by
  unfold lengthLine
  cases f.carriageReturn with
  | true => exact stripCarriageReturn_append _
  | false =>
    rw [if_neg Bool.false_ne_true, List.append_nil, stripCarriageReturn,
      if_neg (getLast?_of_digits f.digits_ne f.digits_all _)]

theorem contentLengthMatch_digits {digits : Bytes} (hne : digits ≠ [])
    (hall : ∀ c ∈ digits, isdigit c = true) :
    contentLengthMatch (contentLengthPrefix ++ digits) = some digits := by
  have hlead : contentLengthPrefix.isPrefixOf (contentLengthPrefix ++ digits) = true :=
    List.isPrefixOf_iff_prefix.mpr (List.prefix_append _ _)
  rw [contentLengthMatch, if_pos hlead, List.drop_left]
  exact if_pos ⟨hne, List.all_eq_true.mpr hall⟩

theorem stoull_digits {digits : Bytes} (hne : digits ≠ [])
    (hall : ∀ c ∈ digits, isdigit c = true) (h : digitsValue 10 digits 0 < 2 ^ 64) :
    stoull digits = .ok (digitsValue 10 digits 0) := by
  have htake : digits.takeWhile isdigit = digits := List.takeWhile_eq_self_iff.mpr hall
  rw [stoull, htake]
  exact (if_neg hne).trans (if_pos h)

theorem Frame.lengthLine_oneLine (f : Frame) : ch '\n' ∉ f.lengthLine := by
  have hlead : ch '\n' ∉ contentLengthPrefix := by decide
  have hdigits : ch '\n' ∉ f.digits := by
    intro h
    exact absurd (f.digits_all _ h) (by decide)
  have hreturn : ch '\n' ∉ (if f.carriageReturn then [ch '\r'] else []) := by
    cases f.carriageReturn <;> decide
  unfold lengthLine
  simp only [List.mem_append, not_or]
  exact ⟨⟨hlead, hdigits⟩, hreturn⟩

/-- A round over a line that the input has in full. -/
theorem headerRound_line {line : Bytes} (h : ch '\n' ∉ line) (contentLength : Nat) (rest : Bytes) :
    headerRound contentLength (.ofBytes (line ++ ch '\n' :: rest) interrupted) =
      match contentLengthMatch (stripCarriageReturn line) with
      | some digits =>
        match stoull digits with
        | .ok length => .again length (.ofBytes rest interrupted)
        | .error error => .thrown (.conversion error)
      | none =>
        if stripCarriageReturn line ≠ [] then .again contentLength (.ofBytes rest interrupted)
        else .done contentLength (.ofBytes rest interrupted) := by
  rw [headerRound, Input.getline_line h]
  rfl

theorem headerRound_other (line : OtherLine) (contentLength : Nat) (rest : Bytes) :
    headerRound contentLength (.ofBytes (line.raw ++ ch '\n' :: rest) interrupted) =
      .again contentLength (.ofBytes rest interrupted) := by
  rw [headerRound_line line.oneLine, line.other]
  exact if_pos line.nonempty

theorem headerRound_length (f : Frame) (contentLength : Nat) (rest : Bytes) :
    headerRound contentLength (.ofBytes (f.lengthLine ++ ch '\n' :: rest) interrupted) =
      .again f.body.length (.ofBytes rest interrupted) := by
  have hbound : digitsValue 10 f.digits 0 < 2 ^ 64 := by
    have hlength := f.length
    have hbounded := f.bounded
    omega
  rw [headerRound_line f.lengthLine_oneLine, f.strip_lengthLine,
    contentLengthMatch_digits f.digits_ne f.digits_all]
  dsimp only
  rw [stoull_digits f.digits_ne f.digits_all hbound, f.length]

theorem headerRound_end (contentLength : Nat) (rest : Bytes) :
    headerRound contentLength (.ofBytes ([ch '\r'] ++ ch '\n' :: rest) interrupted) =
      .done contentLength (.ofBytes rest interrupted) := by
  rw [headerRound_line (by decide)]
  rfl

/-! ## The header loop -/

/-- The loop leaves with a length and an input. -/
def Header (contentLength : Nat) (input : Input) (length : Nat) (input' : Input) : Prop :=
  ∃ fuel, readHeader fuel contentLength input = some (.ok (length, input'))

theorem Header.done {contentLength length : Nat} {input input' : Input}
    (h : headerRound contentLength input = .done length input') :
    Header contentLength input length input' := by
  refine ⟨1, ?_⟩
  rw [readHeader, h]

theorem Header.again {contentLength contentLength' length : Nat} {input input' final : Input}
    (h : headerRound contentLength input = .again contentLength' input')
    (hrest : Header contentLength' input' length final) :
    Header contentLength input length final := by
  obtain ⟨fuel, hfuel⟩ := hrest
  refine ⟨fuel + 1, ?_⟩
  rw [readHeader, h]
  exact hfuel

theorem Header.others {contentLength length : Nat} {final : Input} {rest : Bytes}
    (lines : List OtherLine)
    (hrest : Header contentLength (.ofBytes rest interrupted) length final) :
    Header contentLength (.ofBytes (linesBytes lines ++ rest) interrupted) length final := by
  induction lines with
  | nil => exact hrest
  | cons line lines ih =>
    have hbytes : linesBytes (line :: lines) ++ rest =
        line.raw ++ ch '\n' :: (linesBytes lines ++ rest) := by
      simp [linesBytes]
    rw [hbytes]
    exact .again (headerRound_other line contentLength _) ih

/-- The header of a frame says how long its body is. -/
theorem Frame.header (f : Frame) (rest : Bytes) :
    Header 0 (.ofBytes (f.bytes ++ rest) interrupted) f.body.length
      (.ofBytes (f.body ++ rest) interrupted) := by
  have hbytes : f.bytes ++ rest = linesBytes f.before ++ (f.lengthLine ++ ch '\n' ::
      (linesBytes f.after ++ ([ch '\r'] ++ ch '\n' :: (f.body ++ rest)))) := by
    have hend : str "\r\n" = [ch '\r', ch '\n'] := by decide
    simp [bytes, hend]
  rw [hbytes]
  refine .others f.before (.again (headerRound_length f 0 _) (.others f.after ?_))
  exact .done (headerRound_end _ _)

/-! ## Messages -/

theorem readContent_body {body rest : Bytes} (hbounded : body.length < 2 ^ 63 - 1) :
    readContent body.length (.ofBytes (body ++ rest) interrupted) =
      (if 0 < body.length ∧ body.length ≤ maxLength then some body else none,
        .ofBytes rest interrupted) := by
  unfold readContent
  by_cases hlarge : maxLength < body.length
  · have hnot : ¬ (0 < body.length ∧ body.length ≤ maxLength) := by omega
    rw [if_pos hlarge, if_neg hnot, ignoreLength, if_pos hbounded, Input.ignore_append]
  · rw [if_neg hlarge]
    by_cases hpos : 0 < body.length
    · have hboth : 0 < body.length ∧ body.length ≤ maxLength := by omega
      rw [if_pos hpos, if_pos hboth, Input.read_append]
      rfl
    · have hnil : body = [] := List.eq_nil_of_length_eq_zero (by omega)
      subst hnil
      rfl

theorem Frame.readStep (f : Frame) (rest : Bytes) :
    ReadStep (.ofBytes (f.bytes ++ rest) interrupted) f.message (.ofBytes rest interrupted) := by
  have hheader : Header 0 (.ofBytes (f.bytes ++ rest) interrupted) f.body.length
      (.ofBytes (f.body ++ rest) interrupted) := f.header rest
  obtain ⟨fuel, hfuel⟩ := hheader
  refine ⟨fuel, ?_⟩
  rw [readMessage, hfuel]
  show some (Except.ok (readContent f.body.length _)) = _
  rw [readContent_body f.bounded]
  rfl

/-- One call for each frame. -/
theorem run_frames (frames : List Frame) (rest : Bytes) :
    Run ReadStep (.ofBytes (frames.flatMap Frame.bytes ++ rest) interrupted)
      (frames.map Frame.message) (.ofBytes rest interrupted) := by
  induction frames with
  | nil => exact .nil _
  | cons f frames ih =>
    rw [List.flatMap_cons, List.append_assoc, List.map_cons]
    exact .cons (f.readStep _) ih

/-! ## What is written is read back -/

/-- What `send` writes for a content is a frame. -/
def Frame.ofContent (content : Bytes) (h : content.length < 2 ^ 63 - 1) : Frame where
  before := []
  digits := toDecimal content.length
  carriageReturn := true
  after := []
  body := content
  digits_ne := toDecimal_ne_nil _
  digits_all := fun _ hc => isdigit_of_mem_toDecimal hc
  length := digitsValue_toDecimal _
  bounded := h

theorem Frame.message_ofContent {content : Bytes} (h : content.length < 2 ^ 63 - 1)
    (hlength : 0 < content.length ∧ content.length ≤ maxLength) :
    (Frame.ofContent content h).message = some content := if_pos hlength

theorem frame_eq (content : Bytes) (h : content.length < 2 ^ 63 - 1) :
    frame content = (Frame.ofContent content h).bytes := by
  have hend : str "\r\n\r\n" = [ch '\r', ch '\n'] ++ str "\r\n" := by decide
  simp [frame, Frame.bytes, Frame.lengthLine, Frame.ofContent, linesBytes, contentLengthPrefix,
    hend]

/-- A message that a reply has written. -/
def WrittenBySend (env : Environment) (sent : Sent) : Prop :=
  ∃ field result world world', send env field result world = .ok world' ∧
    world'.sent = world.sent ++ [sent]

theorem WrittenBySend.message_eq {env : Environment} {sent : Sent} (h : WrittenBySend env sent) :
    sent.message = frame (serialize env sent.value) := by
  obtain ⟨field, result, world, world', hsend, hsent⟩ := h
  have hanswers := (send_answers hsend).sent
  rw [hsent, List.append_cancel_left_eq, List.flatMap_singleton, written] at hanswers
  cases hid : world.context.requestId with
  | none =>
    rw [hid] at hanswers
    cases hanswers
  | some id =>
    cases hstream : world.context.requestOutputStream with
    | none =>
      rw [hid, hstream] at hanswers
      cases hanswers
    | some stream =>
      rw [hid, hstream] at hanswers
      cases hanswers
      rfl

/-- Successive calls take one frame each and give the bodies in order, and the
messages that replies wrote are read back as they are. -/
theorem framing_exact (interrupted : Bool) :
    (∀ (before after : List Frame) (rest : Bytes),
      Run ReadStep (.ofBytes ((before ++ after).flatMap Frame.bytes ++ rest) interrupted)
        (before.map Frame.message)
        (.ofBytes (after.flatMap Frame.bytes ++ rest) interrupted)) ∧
    (∀ (env : Environment) (replies : List Sent),
      (∀ sent ∈ replies, WrittenBySend env sent ∧ 0 < (serialize env sent.value).length ∧
        (serialize env sent.value).length ≤ maxLength) →
      Run ReadStep (.ofBytes (replies.flatMap Sent.message) interrupted)
        (replies.map fun sent => some (serialize env sent.value)) (.ofBytes [] interrupted)) := by
  constructor
  · intro before after rest
    rw [List.flatMap_append, List.append_assoc]
    exact run_frames before _
  · intro env replies h
    induction replies with
    | nil => exact .nil _
    | cons sent replies ih =>
      obtain ⟨⟨hwritten, hlength⟩, hreplies⟩ := List.forall_mem_cons.mp h
      have hbounded : (serialize env sent.value).length < 2 ^ 63 - 1 := by
        unfold maxLength at hlength
        omega
      rw [List.flatMap_cons, List.map_cons, hwritten.message_eq, frame_eq _ hbounded,
        ← Frame.message_ofContent hbounded hlength]
      exact .cons (Frame.readStep _ _) (ih hreplies)

/-- A frame with a second header line, and an empty one. -/
theorem framing_exact_two_frames :
    Run ReadStep
      (.ofBytes (str "Content-Length: 2\r\nContent-Type: x\n\r\n[]Content-Length: 0\r\n\r\n") false)
      [some (str "[]"), none] (.ofBytes [] false) := by
  have hrun := (framing_exact false).1
    [{ before := [], digits := str "2", carriageReturn := true,
       after := [{ raw := str "Content-Type: x", oneLine := by decide, nonempty := by decide,
                   other := by decide }],
       body := str "[]", digits_ne := by decide, digits_all := by decide, length := by decide,
       bounded := by decide },
     Frame.ofContent [] (by decide)] [] []
  exact hrun

end P4LS
