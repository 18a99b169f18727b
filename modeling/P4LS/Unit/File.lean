import P4LS.Library.Words
import P4LS.Protocol.Types

/-!
# The unit of one open document

`P4File` is the server's copy of a document.  The preprocessor that `compile`
runs is outside the repository; it is a parameter, which may throw, and the
part of `compile` that filled the tables is disabled in the source.
-/

namespace P4LS

open Bytes

/-- The ways a call can fail to return normally. -/
inductive Fault where
  | json (fault : Json.Fault)
  | conversion (error : ConversionError)
  /-- `get_existing` found no value for its key. -/
  | noContextValue
  /-- An iterator past the last token is read or advanced. -/
  | noToken
  /-- A string is read after its destruction. -/
  | useAfterFree
  /-- An exception left the preprocessor. -/
  | preprocessor
  /-- An exception left a file system call. -/
  | fileSystem
  deriving DecidableEq

/-- A failed assertion of the JSON library ends the call. -/
def checked {α : Type} (x : Except Json.Fault α) : Except Fault α := x.mapError .json

theorem checked_eq_ok {α : Type} {x : Except Json.Fault α} {a : α} :
    checked x = .ok a ↔ x = .ok a := Except.mapError_eq_ok

theorem returns_checked {α : Type} {x : Except Json.Fault α} : (checked x).Returns ↔ x.Returns :=
  Except.returns_mapError

/-- The preprocessor, run over the path and the text of a unit. -/
abbrev Preprocessor := Bytes → Bytes → Except Fault Unit

/-! ## Offsets in the text -/

/-- `content.find_first_of(newline, index)`. -/
def findNewline (content : Bytes) (index : Nat) : Option Nat :=
  ((content.drop index).findIdx? (· == ch '\n')).map (index + ·)

/-- The loop over the lines before the position.  `lines` is the number of lines
still to pass. -/
def skipLines (content : Bytes) : Nat → Nat → Option Nat
  | 0, index => some index
  | lines + 1, index =>
    match findNewline content index with
    | none => none
    | some nextIndex => skipLines content lines (nextIndex + 1)

/-- `std::string::npos` is `none`. -/
def getPositionIndex (content : Bytes) (position : Position) : Option Nat :=
  match skipLines content position.line.toNat 0 with
  | none => none
  | some index =>
    let lineEndIndex := (findNewline content index).getD content.length
    if index + position.character.toNat < lineEndIndex then
      some (index + position.character.toNat)
    else
      none

/-! ## The file -/

structure P4File where
  command : Bytes
  argv : List Nat
  unitPath : Bytes
  sourceCode : Bytes
  symbols : List SymbolInformation
  definitions : List (Bytes × Bytes)
  locations : List (Bytes × List (Range × Bytes))
  highlights : List (Bytes × List TextDocumentHighlight)
  changed : Bool

/-- The tokens of a command.  Boost's `char_separator` is taken by its documentation: it cuts at
every blank and drops empty tokens. -/
def tokenize (command : Bytes) : List Bytes := Words.words (ch ' ') command

/-- Copy at most `size` bytes of a C string and fill up with NUL. -/
def strncpy (buffer : Bytes) (arg : Nat) (source : Bytes) (size : Nat) : Bytes :=
  buffer.take arg ++ (cstr source ++ List.replicate size 0).take size ++ buffer.drop (arg + size)

def storeTokens : List Bytes → Nat → Bytes × List Nat → Bytes × List Nat
  | [], _, stored => stored
  | it :: rest, arg, (command, argv) =>
    let size := it.length + 1
    storeTokens rest (arg + size) (strncpy command arg it size, argv ++ [arg])

namespace P4File

/-- The tables and the text are untouched. -/
def compile (wave : Preprocessor) (file : P4File) : Except Fault P4File := do
  wave file.unitPath file.sourceCode
  return file

/-- The constructor. -/
def create (wave : Preprocessor) (command unitPath text : Bytes) : Except Fault P4File :=
  let stored := storeTokens (tokenize command) 0 (List.replicate (command.length + 1) 0, [])
  compile wave
    { command := stored.1, argv := stored.2, unitPath := unitPath, sourceCode := text,
      symbols := [], definitions := [], locations := [], highlights := [], changed := true }

/-- One round of the loop of `change_source_code`. -/
def applyChange (sourceCode : Bytes) (it : TextDocumentContentChangeEvent) : Bytes :=
  match it.range with
  | none => it.text
  | some range =>
    match getPositionIndex sourceCode range.start, getPositionIndex sourceCode range.stop with
    | some start, some stop =>
      if start ≤ stop ∧ it.rangeLength.all (·.toNat = stop - start) then
        sourceCode.take start ++ it.text ++ sourceCode.drop stop
      else
        sourceCode
    | _, _ => sourceCode

def changeSourceCode (file : P4File) (contentChanges : List TextDocumentContentChangeEvent) :
    P4File :=
  { file with changed := true, sourceCode := contentChanges.foldl applyChange file.sourceCode }

def getSymbols (wave : Preprocessor) (file : P4File) :
    Except Fault (List SymbolInformation × P4File) := do
  let file ← if file.changed then compile wave file else pure file
  return (file.symbols, file)

/-- `operator[]` of a map: the value of a key, which is added if it is absent. -/
def subscript {α : Type} (key : Bytes) (entries : List (Bytes × List α)) :
    List α × List (Bytes × List α) :=
  match entries.lookup key with
  | some value => (value, entries)
  | none => ([], (key, []) :: entries)

def getHover (file : P4File) (location : Location) : Option Bytes × P4File :=
  let (entries, locations) := subscript location.uri file.locations
  let file := { file with locations := locations }
  match entries.find? (fun it => it.1.and location.range) with
  | some it => (file.definitions.lookup it.2, file)
  | none => (none, file)

def getHighlights (file : P4File) (location : Location) :
    Option (List TextDocumentHighlight) × P4File :=
  let (entries, locations) := subscript location.uri file.locations
  let file := { file with locations := locations }
  match entries.find? (fun it => it.1.and location.range) with
  | some it =>
    let (found, highlights) := subscript it.2 file.highlights
    (some found, { file with highlights := highlights })
  | none => (none, file)

@[simp] theorem changeSourceCode_sourceCode (file : P4File)
    (changes : List TextDocumentContentChangeEvent) :
    (file.changeSourceCode changes).sourceCode = changes.foldl applyChange file.sourceCode := rfl

theorem compile_eq_ok {wave : Preprocessor} {file file' : P4File} :
    file.compile wave = .ok file' ↔
      (wave file.unitPath file.sourceCode).Returns ∧ file' = file := by
  constructor
  · intro h
    obtain ⟨u, hu, h⟩ := Except.bind_eq_ok.mp h
    exact ⟨⟨u, hu⟩, (Except.ok.inj h).symm⟩
  · intro h
    obtain ⟨⟨u, hu⟩, rfl⟩ := h
    exact Except.bind_eq_ok.mpr ⟨u, hu, rfl⟩

/-- What the constructor leaves in the unit it builds. -/
theorem create_sourceCode {wave : Preprocessor} {command unitPath text : Bytes} {file : P4File}
    (h : create wave command unitPath text = .ok file) :
    file.sourceCode = text ∧ file.unitPath = unitPath := by
  obtain ⟨_, rfl⟩ := compile_eq_ok.mp h
  exact ⟨rfl, rfl⟩

end P4File

end P4LS
