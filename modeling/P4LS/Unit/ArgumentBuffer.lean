import P4LS.Unit.Arguments

/-!
# The buffer of the arguments

The loop of the constructor, token after token as the tokenizer finds them.  A write behind the
end of the buffer stops it.  What is left to read is never longer than what is left to write,
which is why that does not happen.
-/

namespace P4LS

open Bytes

/-- A part of the buffer. -/
structure Region where
  start : Nat
  size : Nat
  deriving DecidableEq

namespace Region

def Within (region : Region) (length : Nat) : Prop := region.start + region.size ≤ length

/-- No byte is in both. -/
def Disjoint (first second : Region) : Prop :=
  first.Within second.start ∨ second.Within first.start

theorem Within.mono {region : Region} {length length' : Nat} (h : region.Within length)
    (hle : length ≤ length') : region.Within length' := Nat.le_trans h hle

end Region

/-- The buffer, `_argv` and `arg` in the loop, and the parts of the buffer that have been written,
in their order. -/
structure ArgumentBuffer where
  command : Bytes
  argv : List Nat
  arg : Nat
  written : List Region

namespace ArgumentBuffer

/-- Before the loop. -/
def allocate (command : Bytes) : ArgumentBuffer where
  command := List.replicate (command.length + 1) 0
  argv := []
  arg := 0
  written := []

/-- The body of the loop.  `strncpy` writes all bytes of the region. -/
def store (buffer : ArgumentBuffer) (it : Bytes) : Option ArgumentBuffer :=
  let size := it.length + 1
  if buffer.arg + size ≤ buffer.command.length then
    some
      { command := strncpy buffer.command buffer.arg it size
        argv := buffer.argv ++ [buffer.arg]
        arg := buffer.arg + size
        written := buffer.written ++ [⟨buffer.arg, size⟩] }
  else
    none

/-- The loop, from where the tokenizer is in the text on. -/
def storeAll (unread : Bytes) (buffer : ArgumentBuffer) : Option ArgumentBuffer :=
  match _h : Words.next (ch ' ') unread with
  | none => some buffer
  | some (it, unread') =>
    match buffer.store it with
    | none => none
    | some buffer' => storeAll unread' buffer'
termination_by unread.length
decreasing_by exact Words.length_of_next _h

/-- The string at a place of the buffer.  There is none where no NUL ends it. -/
def readString (command : Bytes) (arg : Nat) : Option Bytes :=
  if 0 ∈ command.drop arg then some (cstr (command.drop arg)) else none

variable {buffer buffer' : ArgumentBuffer} {command unread unread' it : Bytes}

theorem store_eq_some : buffer.store it = some buffer' ↔
    buffer.arg + (it.length + 1) ≤ buffer.command.length ∧
      buffer' =
        { command := strncpy buffer.command buffer.arg it (it.length + 1)
          argv := buffer.argv ++ [buffer.arg]
          arg := buffer.arg + (it.length + 1)
          written := buffer.written ++ [⟨buffer.arg, it.length + 1⟩] } := by
  unfold store
  dsimp only
  split
  · rename_i hfits
    rw [Option.some.injEq]
    exact ⟨fun heq => ⟨hfits, heq.symm⟩, fun h => h.2.symm⟩
  · rename_i hfits
    exact iff_of_false nofun fun h => hfits h.1

theorem length_strncpy {buffer source : Bytes} {arg size : Nat} (h : arg + size ≤ buffer.length) :
    (strncpy buffer arg source size).length = buffer.length := by
  simp only [strncpy, List.length_append, List.length_take, List.length_replicate,
    List.length_drop]
  omega

/-! ## The pointer and the position of the tokenizer -/

/-- Behind `arg` there is room for what the tokenizer has not read from the next token on, and
everything written so far is in front of it. -/
structure Room (command unread : Bytes) (buffer : ArgumentBuffer) : Prop where
  length : buffer.command.length = command.length + 1
  room : Words.skip (ch ' ') unread ≠ [] →
    buffer.arg + (Words.skip (ch ' ') unread).length ≤ command.length
  arg_le : buffer.arg ≤ command.length + 1
  before : ∀ region ∈ buffer.written, region.Within buffer.arg
  disjoint : buffer.written.Pairwise Region.Disjoint

theorem room_allocate (command : Bytes) : Room command command (allocate command) where
  length := List.length_replicate
  room _ := by
    have hle := Words.length_skip_le (ch ' ') command
    show 0 + (Words.skip (ch ' ') command).length ≤ command.length
    omega
  arg_le := Nat.zero_le _
  before := fun _ h => absurd h List.not_mem_nil
  disjoint := .nil

/-- Storing the next token succeeds and leaves room for those behind it. -/
theorem Room.store (h : Room command unread buffer)
    (hnext : Words.next (ch ' ') unread = some (it, unread')) :
    ∃ buffer', buffer.store it = some buffer' ∧ Room command unread' buffer' := by
  obtain ⟨hne, _, hskip, _⟩ := Words.next_eq_some hnext
  have hroom := h.room fun hnil => hne (List.append_eq_nil_iff.mp (hskip.symm.trans hnil)).1
  have hlength : (Words.skip (ch ' ') unread).length = it.length + unread'.length := by
    rw [hskip, List.length_append]
  have hfits : buffer.arg + (it.length + 1) ≤ buffer.command.length := by
    rw [h.length]
    omega
  refine ⟨_, store_eq_some.mpr ⟨hfits, rfl⟩, ?_, ?_, ?_, ?_, ?_⟩
  · rw [← h.length]
    exact length_strncpy hfits
  · intro hrest
    have hgap := Words.length_skip_of_next hnext hrest
    dsimp only
    omega
  · rw [← h.length]
    exact hfits
  · intro region hregion
    rcases List.mem_append.mp hregion with hold | hnew
    · exact (h.before region hold).mono (Nat.le_add_right _ _)
    · rw [List.mem_singleton.mp hnew]
      exact Nat.le_refl _
  · refine List.pairwise_append.mpr ⟨h.disjoint, List.pairwise_singleton _ _, ?_⟩
    intro region hold new hnew
    rw [List.mem_singleton.mp hnew]
    exact .inl (h.before region hold)

/-- The loop ends without a write behind the end. -/
theorem Room.storeAll (h : Room command unread buffer) :
    ∃ buffer', storeAll unread buffer = some buffer' ∧ Room command [] buffer' := by
  induction hn : unread.length using Nat.strongRecOn generalizing unread buffer with
  | ind n ih =>
    rw [ArgumentBuffer.storeAll]
    split
    · exact ⟨buffer, rfl, h.length, fun hne => absurd rfl hne, h.arg_le, h.before, h.disjoint⟩
    · rename_i it unread' hnext
      obtain ⟨stored, hstore, hroom⟩ := h.store hnext
      rw [hstore]
      exact ih _ (hn ▸ Words.length_of_next hnext) hroom rfl

/-! ## What is stored -/

theorem storeAll_tokens (h : storeAll unread buffer = some buffer') :
    (buffer'.command, buffer'.argv) =
        storeTokens (tokenize unread) buffer.arg (buffer.command, buffer.argv) ∧
      buffer'.written.map Region.start = buffer.written.map Region.start ++
        Words.offsets (tokenize unread) buffer.arg ∧
      buffer'.written.map Region.size = buffer.written.map Region.size ++
        (tokenize unread).map (·.length + 1) := by
  fun_induction storeAll unread buffer with
  | case1 unread buffer hnext =>
    obtain rfl := Option.some.inj h
    rw [tokenize, Words.words_of_next_eq_none hnext, Words.offsets, List.map_nil,
      List.append_nil, List.append_nil]
    exact ⟨rfl, rfl, rfl⟩
  | case2 unread buffer it unread' hnext hstore => cases h
  | case3 unread buffer it unread' hnext stored hstore ih =>
    obtain ⟨hcommand, hstart, hsize⟩ := ih h
    obtain ⟨_, rfl⟩ := store_eq_some.mp hstore
    rw [tokenize, Words.words_of_next_eq_some hnext, ← tokenize]
    refine ⟨hcommand, ?_, ?_⟩
    · rw [hstart, List.map_append, List.append_assoc]
      rfl
    · rw [hsize, List.map_append, List.append_assoc]
      rfl

theorem readString_of_token {token : Bytes} {arg : Nat} (htoken : 0 ∉ token)
    (h : token ++ [0] <+: command.drop arg) : readString command arg = some token := by
  obtain ⟨rest, hrest⟩ := h
  rw [List.append_assoc] at hrest
  have hmem : 0 ∈ command.drop arg := by
    rw [← hrest]
    exact List.mem_append_right _ List.mem_cons_self
  have hcstr : cstr (command.drop arg) = token := by
    rw [← hrest]
    exact Words.takeWhile_append_stop htoken rest
  rw [readString, if_pos hmem, hcstr]

/-- The strings at the offsets of packed tokens. -/
theorem readString_packed {tokens : List Bytes} (h : ∀ token ∈ tokens, 0 ∉ token) (rest : Bytes) :
    (Words.offsets tokens 0).map (readString (Words.pack 0 tokens ++ rest)) =
      tokens.map some := by
  have hpacked := (List.forall₂_and_left tokens _).mpr
    ⟨h, Words.pack_at_offsets (0 : UInt8) tokens [] rest⟩
  have hread : List.Forall₂ (fun token arg =>
      some token = readString (Words.pack 0 tokens ++ rest) arg) tokens (Words.offsets tokens 0) :=
    hpacked.imp fun token arg hat => (readString_of_token hat.1 hat.2).symm
  rw [← List.forall₂_map_right_iff, ← List.forall₂_map_left_iff, List.forall₂_eq_eq_eq] at hread
  exact hread.symm

/-- What the loop has done at its end. -/
structure Stores (command : Bytes) (buffer : ArgumentBuffer) : Prop where
  length : buffer.command.length = command.length + 1
  /-- All writes are inside of the buffer. -/
  within : ∀ region ∈ buffer.written, region.Within (command.length + 1)
  disjoint : buffer.written.Pairwise Region.Disjoint
  /-- Each token has its region, with one byte more than the token, and `_argv` its begin. -/
  starts : buffer.written.map Region.start = buffer.argv
  sizes : buffer.written.map Region.size = (tokenize command).map (·.length + 1)
  /-- The strings that `_argv` points to are the tokens. -/
  strings : buffer.argv.map (readString buffer.command) = (tokenize command).map some
  /-- The constructor keeps this buffer. -/
  kept : ∀ wave unitPath text file, P4File.create wave command unitPath text = .ok file →
    file.command = buffer.command ∧ file.argv = buffer.argv

end ArgumentBuffer

/-- The loop over the tokens of a command without NUL writes nothing outside of its buffer, and
keeps all tokens. -/
theorem P4File.storeAll_stores (command : Bytes) (hcommand : 0 ∉ command) :
    ∃ buffer, ArgumentBuffer.storeAll command (.allocate command) = some buffer ∧
      buffer.Stores command := by
  obtain ⟨buffer, hrun, hroom⟩ := (ArgumentBuffer.room_allocate command).storeAll
  obtain ⟨hstored, hstarts, hsizes⟩ := ArgumentBuffer.storeAll_tokens hrun
  have hpacked := hstored.trans (storeTokens_allocated hcommand)
  have hbuffer := congrArg Prod.fst hpacked
  have hargv := congrArg Prod.snd hpacked
  dsimp only at hbuffer hargv
  refine ⟨buffer, hrun, hroom.length, ?_, hroom.disjoint, hstarts.trans hargv.symm, hsizes, ?_, ?_⟩
  · exact fun region hregion => (hroom.before region hregion).mono hroom.arg_le
  · rw [hbuffer, hargv]
    exact ArgumentBuffer.readString_packed (not_mem_token hcommand) _
  · intro wave unitPath text file hcreate
    obtain ⟨_, hargv', hbuffer'⟩ := create_packed hcommand hcreate
    exact ⟨hbuffer'.trans hbuffer.symm, hargv'.trans hargv.symm⟩

/-- Blanks in front of the tokens, between them and behind them. -/
theorem P4File.storeAll_stores_blanks :
    ∃ buffer, ArgumentBuffer.storeAll (str "  p4c  -I inc ")
        (.allocate (str "  p4c  -I inc ")) = some buffer ∧
      buffer.Stores (str "  p4c  -I inc ") :=
  P4File.storeAll_stores _ (by decide)

end P4LS
