import P4LS.Server.World

/-!
# Compilation commands

`find_command_for_path` looks for a `compile_commands.json` in the directories
above a file, rewrites the commands of the first one it finds and keeps them.
It can only be answered when the database has an entry, and every entry a file
and a command with at least one token.

The tokenizer of the first command is made from a temporary string and keeps
iterators into it.  It is read after the string has been destroyed, so the
include directory depends on what is left in the storage.
-/

namespace P4LS

open Bytes Json

/-- The directories above a path, the nearest first: the values of `path` in the
loop. -/
def FileSystem.ancestors (fs : FileSystem) (path : Bytes) : List Bytes :=
  if _h : fs.parentPath path = [] then []
  else fs.parentPath path :: fs.ancestors (fs.parentPath path)
termination_by path.length
decreasing_by exact fs.parentPath_shorter path ‹_›

/-- The include directory of the standard library, next to the directory of the
compiler, or nothing. -/
def findStdInclude (fs : FileSystem) (compiler : Bytes) : Except Fault Bytes := do
  if fs.parentPath compiler ≠ [] ∧ fs.parentPath (fs.parentPath compiler) ≠ [] then
    let root := fs.parentPath (fs.parentPath compiler)
    let share := fs.append (fs.append (fs.append root (str "share")) (str "p4c")) (str "p4include")
    if ← fs.status share then
      return cstr share
    else if ← fs.status (fs.append root (str "p4include")) then
      return cstr (fs.append root (str "p4include"))
    else
      return []
  else
    return []

/-- The first token is replaced by the name of the server. -/
def rewriteCommand (stdInclude command : Bytes) : Except Fault Bytes :=
  match tokenize command with
  | [] => .error .noToken
  | _ :: arguments =>
    let include_ := if stdInclude = [] then [] else str " -I " ++ stdInclude
    .ok (str "p4lsd" ++ include_ ++ arguments.flatMap (ch ' ' :: ·))

/-- One round of the loop over the entries. -/
def addCommand (stdInclude : Bytes) (commands : List (Bytes × Bytes)) (it : Json) :
    Except Fault (List (Bytes × Bytes)) := do
  let theFile ← checked (it.requiredMember (str "file") getString)
  let command ← checked (it.requiredMember (str "command") getString)
  let theCommand ← rewriteCommand stdInclude command
  return Assoc.emplace theFile theCommand commands

/-- `*tokens.begin()`: the first token of the storage in which the string of the first command
was. -/
def firstCompiler (env : Environment) (entries : List Json) : Except Fault Bytes := do
  let first ← checked (Json.at_ 0 (.array entries))
  let command ← checked (first.requiredMember (str "command") getString)
  match env.freed.read command with
  | none => throw .useAfterFree
  | some storage =>
    match tokenize storage with
    | [] => throw .noToken
    | compiler :: _ => return compiler

def readDatabase (env : Environment) (path file : Bytes) (commands : List (Bytes × Bytes)) :
    Except Fault (Bytes × List (Bytes × Bytes)) :=
  match env.rapidjson.parse (cstr (env.fileSystem.read path)) with
  | some (.array entries) => do
    let compiler ← firstCompiler env entries
    let stdInclude ← findStdInclude env.fileSystem compiler
    let commands ← entries.foldlM (addCommand stdInclude) commands
    return ((commands.lookup file).getD [], commands)
  | _ => return ([], commands)

/-- The loop over the directories ends at the first one with a database. -/
def searchDirectories (env : Environment) (file : Bytes) (commands : List (Bytes × Bytes)) :
    List Bytes → Except Fault (Bytes × List (Bytes × Bytes))
  | [] => return ([], commands)
  | path :: paths => do
    let compileCommandsPath := env.fileSystem.append path (str "compile_commands.json")
    if ← env.fileSystem.status compileCommandsPath then
      readDatabase env compileCommandsPath file commands
    else
      searchDirectories env file commands paths

def findCommandForPath (env : Environment) (file : Bytes) (commands : List (Bytes × Bytes)) :
    Except Fault (Bytes × List (Bytes × Bytes)) :=
  match commands.lookup file with
  | some command => return (command, commands)
  | none => searchDirectories env file commands (env.fileSystem.ancestors file)

/-! ## When the lookup comes back -/

/-- A string that has a token. -/
def IsCommand (json : Json) : Prop := ∃ s, json = .string s ∧ tokenize (cstr s) ≠ []

/-- An entry of a compilation database. -/
def EntryReadable (json : Json) : Prop :=
  Required (str "file") IsString json ∧ Required (str "command") IsCommand json

/-- The file system answers for the two include directories. -/
def StdIncludeReadable (fs : FileSystem) (compiler : Bytes) : Prop :=
  fs.parentPath compiler ≠ [] ∧ fs.parentPath (fs.parentPath compiler) ≠ [] →
    let root := fs.parentPath (fs.parentPath compiler)
    let share := fs.append (fs.append (fs.append root (str "share")) (str "p4c")) (str "p4include")
    (fs.status share).Returns ∧
      (fs.status share = .ok false → (fs.status (fs.append root (str "p4include"))).Returns)

/-- A compiler is read for the first command, from the storage its string was in. -/
def FirstToken (freed : FreedStorage) (entries : List Json) (compiler : Bytes) : Prop :=
  ∃ first rest command storage arguments, entries = first :: rest ∧
    first.requiredMember (str "command") getString = .ok command ∧
    freed.read command = some storage ∧ tokenize storage = compiler :: arguments

/-- In a database that is an array every entry is readable, and a compiler is read for the first. -/
def DatabaseReadable (env : Environment) (path : Bytes) : Prop :=
  ∀ entries, env.rapidjson.parse (cstr (env.fileSystem.read path)) = some (.array entries) →
    (∀ it ∈ entries, EntryReadable it) ∧
      ∃ compiler, FirstToken env.freed entries compiler ∧
        StdIncludeReadable env.fileSystem compiler

/-- The nearest database is readable. -/
def DirectoriesReadable (env : Environment) : List Bytes → Prop
  | [] => True
  | path :: paths =>
    let compileCommandsPath := env.fileSystem.append path (str "compile_commands.json")
    (env.fileSystem.status compileCommandsPath).Returns ∧
      (env.fileSystem.status compileCommandsPath = .ok true →
        DatabaseReadable env compileCommandsPath) ∧
      (env.fileSystem.status compileCommandsPath = .ok false → DirectoriesReadable env paths)

/-- The command of a file is known or can be looked up. -/
def CommandReadable (env : Environment) (file : Bytes) (commands : List (Bytes × Bytes)) : Prop :=
  commands.lookup file = none → DirectoriesReadable env (env.fileSystem.ancestors file)

theorem returns_findStdInclude {fs : FileSystem} {compiler : Bytes} :
    (findStdInclude fs compiler).Returns ↔ StdIncludeReadable fs compiler := by
  have hchoice : ∀ (x : Except Fault Bool) (path : Bytes),
      (x >>= fun b => if b then pure (cstr path) else pure []).Returns ↔ x.Returns := by
    intro x path
    refine (Except.returns_bind_const (P := True) fun b => ?_).trans (and_iff_left trivial)
    cases b <;> exact iff_of_true (Except.returns_pure _) trivial
  unfold findStdInclude StdIncludeReadable
  by_cases hparent : fs.parentPath compiler ≠ [] ∧ fs.parentPath (fs.parentPath compiler) ≠ []
  · rw [if_pos hparent, imp_iff_right hparent, Except.returns_bind]
    constructor
    · intro h
      obtain ⟨b, hb, hrest⟩ := h
      refine ⟨⟨b, hb⟩, fun hfalse => ?_⟩
      rw [hb] at hfalse
      rw [Except.ok.inj hfalse] at hrest
      exact (hchoice _ _).mp hrest
    · intro h
      obtain ⟨⟨b, hb⟩, hrest⟩ := h
      refine ⟨b, hb, ?_⟩
      cases b with
      | true => exact Except.returns_pure _
      | false => exact (hchoice _ _).mpr (hrest hb)
  · rw [if_neg hparent]
    exact iff_of_true (Except.returns_pure _) fun h => absurd h hparent

theorem returns_rewriteCommand {stdInclude command : Bytes} :
    (rewriteCommand stdInclude command).Returns ↔ tokenize command ≠ [] := by
  unfold rewriteCommand
  cases tokenize command with
  | nil => exact iff_of_false (Except.not_returns_error _) fun h => h rfl
  | cons _ arguments => exact iff_of_true (Except.returns_ok _) (List.cons_ne_nil _ _)

/-- A command is read for its tokens. -/
theorem returns_command_bind {α : Type} {json : Json} {f : Bytes → Except Fault α}
    (h : ∀ command, (f command).Returns ↔ tokenize command ≠ []) :
    (checked (json.requiredMember (str "command") getString) >>= f).Returns ↔
      Required (str "command") IsCommand json := by
  rw [Except.returns_bind]
  constructor
  · intro hx
    obtain ⟨command, hcommand, hf⟩ := hx
    obtain ⟨value, hvalue, hstring⟩ := Except.bind_eq_ok.mp (checked_eq_ok.mp hcommand)
    refine ⟨value, index_eq_ok.mp hvalue, ?_⟩
    cases value with
    | string s =>
      cases hstring
      exact ⟨s, rfl, (h _).mp hf⟩
    | _ => cases hstring
  · intro hx
    obtain ⟨value, hvalue, s, rfl, hs⟩ := hx
    refine ⟨cstr s, checked_eq_ok.mpr ?_, (h _).mpr hs⟩
    exact Except.bind_eq_ok.mpr ⟨.string s, index_eq_ok.mpr hvalue, rfl⟩

theorem returns_addCommand {stdInclude : Bytes} {commands : List (Bytes × Bytes)} {it : Json} :
    (addCommand stdInclude commands it).Returns ↔ EntryReadable it := by
  refine Except.returns_bind_and ?_ fun theFile => ?_
  · exact returns_checked.trans (returns_requiredMember fun _ => returns_getString)
  · exact returns_command_bind fun command => Except.returns_map.trans returns_rewriteCommand

theorem returns_addCommands {stdInclude : Bytes} (entries : List Json)
    (commands : List (Bytes × Bytes)) :
    (entries.foldlM (addCommand stdInclude) commands).Returns ↔
      ∀ it ∈ entries, EntryReadable it := by
  induction entries generalizing commands with
  | nil => exact iff_of_true (Except.returns_pure _) fun it hit => absurd hit List.not_mem_nil
  | cons it entries ih =>
    rw [List.foldlM_cons, List.forall_mem_cons]
    exact Except.returns_bind_and returns_addCommand fun commands => ih commands

theorem firstCompiler_eq_ok_iff {env : Environment} {entries : List Json} {compiler : Bytes} :
    firstCompiler env entries = .ok compiler ↔ FirstToken env.freed entries compiler := by
  constructor
  · intro h
    obtain ⟨first, hfirst, hrest⟩ := Except.bind_eq_ok.mp h
    obtain ⟨command, hcommand, hmatch⟩ := Except.bind_eq_ok.mp hrest
    cases entries with
    | nil => cases hfirst
    | cons first' rest =>
      cases hfirst
      cases hstorage : env.freed.read command with
      | none =>
        rw [hstorage] at hmatch
        cases hmatch
      | some storage =>
        cases htokens : tokenize storage with
        | nil =>
          simp only [hstorage, htokens] at hmatch
          cases hmatch
        | cons compiler' arguments =>
          simp only [hstorage, htokens] at hmatch
          cases hmatch
          exact ⟨first, rest, command, storage, arguments, rfl, checked_eq_ok.mp hcommand,
            hstorage, htokens⟩
  · intro h
    obtain ⟨first, rest, command, storage, arguments, rfl, hcommand, hstorage, htokens⟩ := h
    refine Except.bind_eq_ok.mpr ⟨first, rfl, Except.bind_eq_ok.mpr
      ⟨command, checked_eq_ok.mpr hcommand, ?_⟩⟩
    simp only [hstorage, htokens]
    rfl

theorem returns_readDatabase {env : Environment} {path file : Bytes}
    {commands : List (Bytes × Bytes)} :
    (readDatabase env path file commands).Returns ↔ DatabaseReadable env path := by
  unfold readDatabase DatabaseReadable
  split
  · rename_i entries hparse
    rw [hparse, Except.returns_bind]
    constructor
    · intro h entries' heq
      cases heq
      obtain ⟨compiler, hcompiler, h⟩ := h
      obtain ⟨stdInclude, hinclude, h⟩ := Except.returns_bind.mp h
      exact ⟨(returns_addCommands entries commands).mp (Except.returns_map.mp h), compiler,
        firstCompiler_eq_ok_iff.mp hcompiler, returns_findStdInclude.mp ⟨stdInclude, hinclude⟩⟩
    · intro h
      obtain ⟨hentries, compiler, hcompiler, hinclude⟩ := h entries rfl
      refine ⟨compiler, firstCompiler_eq_ok_iff.mpr hcompiler, ?_⟩
      obtain ⟨stdInclude, hstd⟩ := returns_findStdInclude.mpr hinclude
      refine Except.returns_bind.mpr ⟨stdInclude, hstd, ?_⟩
      exact Except.returns_map.mpr ((returns_addCommands entries commands).mpr hentries)
  · rename_i hparse
    exact iff_of_true (Except.returns_pure _) fun entries heq => absurd heq (hparse entries)

theorem returns_searchDirectories {env : Environment} {file : Bytes}
    {commands : List (Bytes × Bytes)} (paths : List Bytes) :
    (searchDirectories env file commands paths).Returns ↔ DirectoriesReadable env paths := by
  induction paths with
  | nil => exact iff_of_true (Except.returns_pure _) trivial
  | cons path paths ih =>
    rw [searchDirectories, DirectoriesReadable, Except.returns_bind]
    constructor
    · intro h
      obtain ⟨b, hb, h⟩ := h
      refine ⟨⟨b, hb⟩, fun htrue => ?_, fun hfalse => ?_⟩
      · rw [hb] at htrue
        rw [Except.ok.inj htrue] at h
        exact returns_readDatabase.mp h
      · rw [hb] at hfalse
        rw [Except.ok.inj hfalse] at h
        exact ih.mp h
    · intro h
      obtain ⟨⟨b, hb⟩, hdatabase, hrest⟩ := h
      refine ⟨b, hb, ?_⟩
      cases b with
      | true => exact returns_readDatabase.mpr (hdatabase hb)
      | false => exact ih.mpr (hrest hb)

theorem returns_findCommandForPath {env : Environment} {file : Bytes}
    {commands : List (Bytes × Bytes)} :
    (findCommandForPath env file commands).Returns ↔ CommandReadable env file commands := by
  unfold findCommandForPath CommandReadable
  cases commands.lookup file with
  | some command => exact iff_of_true (Except.returns_pure _) fun h => by cases h
  | none => exact (returns_searchDirectories _).trans (imp_iff_right rfl).symm

end P4LS
