import P4LS.Library.Bytes

/-!
# Input streams

A `std::istream` over the bytes that are still to be extracted.  Every input
function first asks for a good stream: on a stream that is not good it sets
`fail` and extracts nothing.

An `Input` is a stream whose bytes arrive in segments.  Reading past a segment
that is not the last is interrupted: the stream is not good, as at the end of
the input, and the error number says that a call was interrupted.
-/

structure Istream where
  rest : Bytes
  eof : Bool
  fail : Bool
  deriving DecidableEq

namespace Istream

open Bytes

def ofBytes (s : Bytes) : Istream := { rest := s, eof := false, fail := false }

def good (is : Istream) : Bool := !is.eof && !is.fail

def clear (is : Istream) : Istream := { is with eof := false, fail := false }

/-- The next byte, or `none` for `traits::eof()`. -/
def get (is : Istream) : Option UInt8 × Istream :=
  if is.good then
    match is.rest with
    | [] => (none, { is with eof := true, fail := true })
    | c :: rest => (some c, { is with rest := rest })
  else
    (none, { is with fail := true })

/-- `get(streambuf&)`: extract up to the next line end, which stays.  Extracting
nothing sets `fail`. -/
def getLine (is : Istream) : Istream :=
  if is.good then
    { rest := is.rest.dropWhile (· != ch '\n'),
      eof := is.rest.dropWhile (· != ch '\n') == [],
      fail := is.rest.takeWhile (· != ch '\n') == [] }
  else
    { is with fail := true }

/-- `std::getline`: extract up to and including the next line end. -/
def getline (is : Istream) : Bytes × Istream :=
  if is.good then
    match is.rest.dropWhile (· != ch '\n') with
    | [] => (is.rest, { rest := [], eof := true, fail := is.rest == [] })
    | _ :: rest => (is.rest.takeWhile (· != ch '\n'), { is with rest := rest })
  else
    ([], { is with fail := true })

/-- `read`: the bytes extracted, at most `n`. -/
def read (is : Istream) (n : Nat) : Bytes × Istream :=
  if is.good then
    if is.rest.length < n then
      (is.rest, { rest := [], eof := true, fail := true })
    else
      (is.rest.take n, { is with rest := is.rest.drop n })
  else
    ([], { is with fail := true })

/-- `ignore`: extract and discard `n` bytes, or all there are. -/
def ignore (is : Istream) (n : Nat) : Istream :=
  if is.good then
    if is.rest.length < n then
      { is with rest := [], eof := true }
    else
      { is with rest := is.rest.drop n }
  else
    { is with fail := true }

@[simp] theorem good_ofBytes (s : Bytes) : (ofBytes s).good = true := rfl

@[simp] theorem rest_ofBytes (s : Bytes) : (ofBytes s).rest = s := rfl

theorem eq_ofBytes {is : Istream} (h : is.good = true) : is = ofBytes is.rest := by
  obtain ⟨rest, eof, fail⟩ := is
  simp only [good, Bool.and_eq_true, Bool.not_eq_true'] at h
  simp [ofBytes, h.1, h.2]

@[simp] theorem get_ofBytes_nil : (ofBytes []).get = (none, ⟨[], true, true⟩) := rfl

@[simp] theorem get_ofBytes_cons (c : UInt8) (s : Bytes) :
    (ofBytes (c :: s)).get = (some c, ofBytes s) := rfl

theorem get_of_not_good {is : Istream} (h : is.good = false) :
    is.get = (none, { is with fail := true }) := by
  simp [get, h]

theorem not_good_fail (s : Bytes) (eof : Bool) : good ⟨s, eof, true⟩ = false := by
  simp [good]

theorem getline_line {line rest : Bytes} (h : ch '\n' ∉ line) :
    (ofBytes (line ++ ch '\n' :: rest)).getline = (line, ofBytes rest) := by
  have hline : ∀ c ∈ line, (c != ch '\n') = true := by
    intro c hc
    rw [bne_iff_ne]
    intro heq
    exact h (heq ▸ hc)
  have hdrop : (ch '\n' :: rest).dropWhile (· != ch '\n') = ch '\n' :: rest := by simp
  have htake : (ch '\n' :: rest).takeWhile (· != ch '\n') = [] := by simp
  rw [getline, good_ofBytes, if_pos rfl, rest_ofBytes, List.dropWhile_append_of_pos hline, hdrop,
    List.takeWhile_append_of_pos hline, htake, List.append_nil]
  rfl

theorem getline_last {rest : Bytes} (h : ch '\n' ∉ rest) :
    (ofBytes rest).getline = (rest, ⟨[], true, rest == []⟩) := by
  have hdrop : rest.dropWhile (· != ch '\n') = [] := by
    rw [List.dropWhile_eq_nil_iff]
    intro c hc
    rw [bne_iff_ne]
    intro heq
    exact h (heq ▸ hc)
  rw [getline, good_ofBytes, if_pos rfl, rest_ofBytes, hdrop]

theorem read_append {body rest : Bytes} :
    (ofBytes (body ++ rest)).read body.length = (body, ofBytes rest) := by
  have hlength : ¬ (body ++ rest).length < body.length := by
    rw [List.length_append]
    omega
  rw [read, good_ofBytes, if_pos rfl, rest_ofBytes, if_neg hlength, List.take_left,
    List.drop_left]
  rfl

theorem ignore_append {body rest : Bytes} :
    (ofBytes (body ++ rest)).ignore body.length = ofBytes rest := by
  have hlength : ¬ (body ++ rest).length < body.length := by
    rw [List.length_append]
    omega
  rw [ignore, good_ofBytes, if_pos rfl, rest_ofBytes, if_neg hlength, List.drop_left]
  rfl

end Istream

/-- A stream, the segments behind its interruptions, and whether the error number
is that of an interrupted call. -/
structure Input where
  stream : Istream
  later : List Bytes
  interrupted : Bool

namespace Input

open Bytes

/-- An input that is never interrupted. -/
def ofBytes (s : Bytes) (interrupted : Bool) : Input :=
  { stream := Istream.ofBytes s, later := [], interrupted := interrupted }

def good (input : Input) : Bool := input.stream.good

def clear (input : Input) : Input := { input with stream := input.stream.clear }

/-- The input after its stream was read.  Where the stream has just met its end
and there are further segments, the reading was interrupted. -/
def extracted (input : Input) (stream : Istream) : Input :=
  match input.later with
  | next :: later =>
    if input.good && stream.eof then
      { stream := { stream with rest := next }, later := later, interrupted := true }
    else
      { input with stream := stream }
  | [] => { input with stream := stream }

def getline (input : Input) : Bytes × Input :=
  (input.stream.getline.1, input.extracted input.stream.getline.2)

def read (input : Input) (n : Nat) : Bytes × Input :=
  ((input.stream.read n).1, input.extracted (input.stream.read n).2)

def ignore (input : Input) (n : Nat) : Input := input.extracted (input.stream.ignore n)

theorem getline_line {line rest : Bytes} {interrupted : Bool} (h : ch '\n' ∉ line) :
    (ofBytes (line ++ ch '\n' :: rest) interrupted).getline = (line, ofBytes rest interrupted) := by
  rw [getline, ofBytes, Istream.getline_line h]
  rfl

theorem read_append {body rest : Bytes} {interrupted : Bool} :
    (ofBytes (body ++ rest) interrupted).read body.length = (body, ofBytes rest interrupted) := by
  rw [read, ofBytes, Istream.read_append]
  rfl

theorem ignore_append {body rest : Bytes} {interrupted : Bool} :
    (ofBytes (body ++ rest) interrupted).ignore body.length = ofBytes rest interrupted := by
  rw [ignore, ofBytes, Istream.ignore_append]
  rfl

/-! ## Reading by count -/

theorem extracted_eq {input : Input} {stream : Istream}
    (h : (input.good && stream.eof) = false) :
    input.extracted stream = { input with stream := stream } := by
  rw [extracted, h]
  cases input.later <;> rfl

/-- An interrupted reading leaves a stream that is as good as at the end of the input. -/
theorem good_extracted (input : Input) (stream : Istream) :
    (input.extracted stream).good = stream.good := by
  unfold extracted
  cases input.later with
  | nil => rfl
  | cons next later =>
    dsimp only
    split <;> rfl

section

variable {input : Input} {n : Nat}

theorem read_enough (hgood : input.good = true) (h : n ≤ input.stream.rest.length) :
    input.read n =
      (input.stream.rest.take n, { input with stream := .ofBytes (input.stream.rest.drop n) }) := by
  have hread :
      input.stream.read n = (input.stream.rest.take n, .ofBytes (input.stream.rest.drop n)) := by
    rw [Istream.eq_ofBytes hgood, Istream.read, Istream.good_ofBytes, if_pos rfl,
      Istream.rest_ofBytes, if_neg (Nat.not_lt.mpr h)]
    rfl
  rw [read, hread, extracted_eq (Bool.and_false _)]

theorem ignore_enough (hgood : input.good = true) (h : n ≤ input.stream.rest.length) :
    input.ignore n = { input with stream := .ofBytes (input.stream.rest.drop n) } := by
  have hignore : input.stream.ignore n = .ofBytes (input.stream.rest.drop n) := by
    rw [Istream.eq_ofBytes hgood, Istream.ignore, Istream.good_ofBytes, if_pos rfl,
      Istream.rest_ofBytes, if_neg (Nat.not_lt.mpr h)]
    rfl
  rw [ignore, hignore, extracted_eq (Bool.and_false _)]

theorem fail_read_short (h : input.stream.rest.length < n) :
    (input.read n).2.stream.fail = true := by
  have hfail : (input.stream.read n).2.fail = true := by
    unfold Istream.read
    rw [if_pos h]
    split <;> rfl
  unfold read extracted
  cases input.later with
  | nil => exact hfail
  | cons next later =>
    dsimp only
    split <;> exact hfail

theorem good_of_fail {input : Input} (h : input.stream.fail = true) : input.good = false := by
  rw [good, Istream.good, h]
  exact Bool.and_false _

theorem good_ignore_short (h : input.stream.rest.length < n) : (input.ignore n).good = false := by
  rw [ignore, good_extracted, Istream.ignore, if_pos h]
  split <;> simp [Istream.good]

end

/-! ## Lines and interruptions -/

/-- No reading was interrupted, and none will be. -/
def quiet (input : Input) : Bool := input.later.isEmpty && !input.interrupted

/-- The input behind the segment that is read, where the stream is cleared after
an interruption. -/
def retried (input : Input) : Input :=
  match input.later with
  | next :: later => { stream := .ofBytes next, later := later, interrupted := true }
  | [] => .ofBytes [] true

/-- The lines there are to read on a good stream.  With the error number of an
interruption they are those that have their line end in one segment; else the
last one need not have it. -/
def lines (input : Input) : List Bytes :=
  if input.good then
    if input.quiet then input.stream.rest.splitOn (ch '\n')
    else (input.stream.rest :: input.later).flatMap fun segment =>
      (segment.splitOn (ch '\n')).dropLast
  else []

/-- The bytes and the segments that are left on a good stream. -/
def size (input : Input) : Nat :=
  if input.good then (input.stream.rest :: input.later).flatten.length + (input.later.length + 1)
  else 0

variable {input : Input} {line rest : Bytes} {later : List Bytes} {interrupted : Bool}

/-- Nothing comes behind the segment of a quiet input. -/
theorem of_quiet {stream : Istream} (h : quiet ⟨stream, later, interrupted⟩ = true) :
    later = [] ∧ interrupted = false := by
  simpa [quiet] using h

theorem size_of_good (hgood : input.good = true) :
    input.size =
      input.stream.rest.length + input.later.flatten.length + (input.later.length + 1) := by
  rw [size, if_pos hgood, List.flatten_cons, List.length_append]

theorem size_not_good (hgood : input.good = false) : input.size = 0 := by
  rw [size, hgood]
  rfl

/-- A good stream has a whole line, or no line end. -/
theorem line_or_not_mem (hgood : input.good = true) :
    (∃ line rest, ch '\n' ∉ line ∧
      input = { input with stream := .ofBytes (line ++ ch '\n' :: rest) }) ∨
    ∃ rest, ch '\n' ∉ rest ∧ input = { input with stream := .ofBytes rest } := by
  obtain ⟨stream, later, interrupted⟩ := input
  have hstream : stream = .ofBytes stream.rest := Istream.eq_ofBytes hgood
  by_cases hmem : ch '\n' ∈ stream.rest
  · obtain ⟨line, rest, hrest, hline⟩ := List.eq_append_cons_of_mem hmem
    refine .inl ⟨line, rest, hline, ?_⟩
    rw [← hrest, ← hstream]
  · refine .inr ⟨stream.rest, hmem, ?_⟩
    rw [← hstream]

theorem lines_complete (h : ch '\n' ∉ line) :
    lines ⟨.ofBytes (line ++ ch '\n' :: rest), later, interrupted⟩ =
      line :: lines ⟨.ofBytes rest, later, interrupted⟩ := by
  have hsplit : (line ++ ch '\n' :: rest).splitOn (ch '\n') = line :: rest.splitOn (ch '\n') :=
    List.splitOn_append_cons_self_of_not_mem h rest
  have hdrop : ((line ++ ch '\n' :: rest).splitOn (ch '\n')).dropLast =
      line :: (rest.splitOn (ch '\n')).dropLast := by
    rw [hsplit, List.dropLast_cons_of_ne_nil (List.splitOn_ne_nil _ _)]
  have hquiet : quiet ⟨.ofBytes (line ++ ch '\n' :: rest), later, interrupted⟩ =
      quiet ⟨.ofBytes rest, later, interrupted⟩ := rfl
  rw [lines, lines, hquiet]
  cases quiet ⟨.ofBytes rest, later, interrupted⟩ with
  | true => exact hsplit
  | false =>
    show List.flatMap _ _ = _ :: List.flatMap _ _
    rw [List.flatMap_cons, List.flatMap_cons, Istream.rest_ofBytes, hdrop]
    rfl

/-- A line that is not ended is lost on the retry. -/
theorem lines_retried (h : ch '\n' ∉ rest)
    (hquiet : quiet ⟨.ofBytes rest, later, interrupted⟩ = false) :
    lines ⟨.ofBytes rest, later, interrupted⟩ =
      (retried ⟨.ofBytes rest, later, interrupted⟩).lines := by
  have hsplit : rest.splitOn (ch '\n') = [rest] := List.splitOn_eq_singleton h
  rw [lines, hquiet]
  simp only [good, Istream.good_ofBytes, Istream.rest_ofBytes, if_true, List.flatMap_cons, hsplit]
  cases later with
  | nil => rfl
  | cons next later =>
    have hnext : quiet ⟨.ofBytes next, later, true⟩ = false := Bool.and_false _
    simp only [retried, lines, hnext]
    rfl

theorem lines_last (h : ch '\n' ∉ rest) : lines (ofBytes rest false) = [rest] :=
  List.splitOn_eq_singleton h

end Input
