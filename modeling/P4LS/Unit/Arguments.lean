import P4LS.Unit.File

/-!
# The arguments of a unit

The constructor copies the tokens of a command into one buffer, each with its NUL, and keeps the
places where they begin.  The strings that are read from there are the tokens.
-/

namespace P4LS

open Bytes

/-- The strings `_argv` points to. -/
def P4File.arguments (file : P4File) : List Bytes :=
  file.argv.map fun arg => cstr (file.command.drop arg)

/-- Copying a string with its NUL to the end of what is packed. -/
theorem strncpy_packed {token : Bytes} (htoken : 0 ∉ token) (front rest : Bytes) :
    strncpy (front ++ rest) front.length token (token.length + 1) =
      front ++ (token ++ [0]) ++ rest.drop (token.length + 1) := by
  have hcopy : (token ++ List.replicate (token.length + 1) 0).take (token.length + 1) =
      token ++ [0] := by
    rw [List.take_length_add_append, List.take_replicate]
    rfl
  rw [strncpy, cstr_eq_self htoken, hcopy, List.take_left, List.drop_append]
  congr 2
  rw [List.drop_eq_nil_of_le (by omega), List.nil_append]
  congr 1
  omega

/-- The loop over the tokens packs them one behind the other. -/
theorem storeTokens_packed {tokens : List Bytes} (h : ∀ token ∈ tokens, 0 ∉ token)
    (front rest : Bytes) (argv : List Nat) :
    storeTokens tokens front.length (front ++ rest, argv) =
      (front ++ Words.pack 0 tokens ++ rest.drop (Words.pack 0 tokens).length,
        argv ++ Words.offsets tokens front.length) := by
  induction tokens generalizing front rest argv with
  | nil =>
    rw [storeTokens, Words.offsets, List.append_nil, Words.pack, List.flatMap_nil,
      List.append_nil]
    rfl
  | cons token tokens ih =>
    obtain ⟨htoken, htokens⟩ := List.forall_mem_cons.mp h
    have hlength : front.length + (token.length + 1) = (front ++ (token ++ [0])).length := by
      simp only [List.length_append, List.length_singleton]
    rw [storeTokens, strncpy_packed htoken, hlength, ih htokens, Words.offsets, Words.pack_cons]
    simp only [Prod.mk.injEq]
    constructor
    · simp [List.drop_drop, Nat.add_assoc, Nat.add_comm]
    · rw [List.append_assoc, ← hlength]
      rfl

theorem not_mem_token {command : Bytes} (hcommand : 0 ∉ command) :
    ∀ token ∈ tokenize command, 0 ∉ token := fun _ htoken hzero =>
  hcommand ((Words.of_mem_words htoken).2.2 0 hzero)

/-- The tokens of a command in the buffer that the constructor allocates. -/
theorem storeTokens_allocated {command : Bytes} (hcommand : 0 ∉ command) :
    storeTokens (tokenize command) 0 (List.replicate (command.length + 1) 0, []) =
      (Words.pack 0 (tokenize command) ++
          (List.replicate (command.length + 1) 0).drop (Words.pack 0 (tokenize command)).length,
        Words.offsets (tokenize command) 0) := by
  have hstored := storeTokens_packed (not_mem_token hcommand) []
    (List.replicate (command.length + 1) 0) []
  rw [List.nil_append, List.nil_append, List.nil_append, List.length_nil] at hstored
  exact hstored

/-- What the constructor leaves in the buffer and in `_argv`. -/
theorem P4File.create_packed {wave : Preprocessor} {command unitPath text : Bytes} {file : P4File}
    (hcommand : 0 ∉ command) (h : create wave command unitPath text = .ok file) :
    (∀ token ∈ tokenize command, 0 ∉ token) ∧
      file.argv = Words.offsets (tokenize command) 0 ∧
      file.command = Words.pack 0 (tokenize command) ++
        (List.replicate (command.length + 1) 0).drop (Words.pack 0 (tokenize command)).length := by
  obtain ⟨_, rfl⟩ := compile_eq_ok.mp h
  have hstored := storeTokens_allocated hcommand
  exact ⟨not_mem_token hcommand, congrArg Prod.snd hstored, congrArg Prod.fst hstored⟩

/-- The arguments of a unit are the tokens of its command. -/
theorem P4File.create_arguments {wave : Preprocessor} {command unitPath text : Bytes}
    {file : P4File} (hcommand : 0 ∉ command)
    (h : create wave command unitPath text = .ok file) : file.arguments = tokenize command := by
  obtain ⟨htokens, hargv, hbuffer⟩ := create_packed hcommand h
  have hread := Words.read_pack htokens []
    ((List.replicate (command.length + 1) 0).drop (Words.pack 0 (tokenize command)).length)
  rw [List.nil_append, List.length_nil] at hread
  rw [arguments, hargv, hbuffer]
  exact hread

end P4LS
