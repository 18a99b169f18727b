import P4LS.Server.Lookup

/-!
# Databases of any shape

`find_command_for_path` takes a database that is an array as it comes: it reads the first element
without a look at the length and its command once more after the string has been destroyed, asks
every element for a file and a command, and every command for a token.  It comes back only where
all of this is there.
-/

namespace P4LS

open Bytes Json

/-- The nearest of the directories that has a database has this array in it. -/
inductive NearestDatabase (env : Environment) (entries : List Json) : List Bytes → Prop where
  | here {path : Bytes} {paths : List Bytes}
      (hstatus : env.fileSystem.status
        (env.fileSystem.append path (str "compile_commands.json")) = .ok true)
      (hparse : env.rapidjson.parse (cstr (env.fileSystem.read
        (env.fileSystem.append path (str "compile_commands.json")))) = some (.array entries)) :
      NearestDatabase env entries (path :: paths)
  | above {path : Bytes} {paths : List Bytes}
      (hstatus : env.fileSystem.status
        (env.fileSystem.append path (str "compile_commands.json")) = .ok false)
      (h : NearestDatabase env entries paths) : NearestDatabase env entries (path :: paths)

theorem stringMember_eq_some_iff {name s : Bytes} {it : Json} :
    stringMember name it = some s ↔ it.requiredMember name getString = .ok s := by
  refine ⟨fun h => ?_, stringMember_of_required⟩
  rw [requiredMember_eq_ok]
  unfold stringMember at h
  split at h
  · rename_i t ht
    exact ⟨.string t, ht, congrArg Except.ok (Option.some.inj h)⟩
  · cases h

/-- An array that the lookup can read: every element is an object with the strings of a file and
of a command that has a token, there is a first one, the storage in which the string of its command
was has a token too, and the file system answers for the include directories beside it. -/
structure Tolerated (env : Environment) (entries : List Json) : Prop where
  readable : ∀ it ∈ entries, EntryReadable it
  compiler : ∃ compiler, FirstToken env.freed entries compiler ∧
    StdIncludeReadable env.fileSystem compiler

theorem databaseReadable_iff {env : Environment} {path : Bytes} {entries : List Json}
    (hparse : env.rapidjson.parse (cstr (env.fileSystem.read path)) = some (.array entries)) :
    DatabaseReadable env path ↔ Tolerated env entries := by
  constructor
  · intro h
    obtain ⟨hreadable, hcompiler⟩ := h entries hparse
    exact ⟨hreadable, hcompiler⟩
  · intro h entries' hparse'
    rw [hparse] at hparse'
    cases hparse'
    exact ⟨h.readable, h.compiler⟩

theorem NearestDatabase.directoriesReadable_iff {env : Environment} {entries : List Json}
    {paths : List Bytes} (h : NearestDatabase env entries paths) :
    DirectoriesReadable env paths ↔ Tolerated env entries := by
  induction h with
  | here hstatus hparse =>
    rw [DirectoriesReadable, ← databaseReadable_iff hparse, hstatus]
    simp
  | above hstatus h ih =>
    rw [DirectoriesReadable, ← ih, hstatus]
    simp

/-- With an array in the nearest database, the lookup comes back if and only if the file is known
or the array can be read. -/
theorem findCommandForPath_returns_iff {env : Environment} {file : Bytes}
    {commands : List (Bytes × Bytes)} {entries : List Json}
    (h : NearestDatabase env entries (env.fileSystem.ancestors file)) :
    (findCommandForPath env file commands).Returns ↔
      (∃ command, commands.lookup file = some command) ∨ Tolerated env entries := by
  rw [returns_findCommandForPath, CommandReadable, h.directoriesReadable_iff]
  cases commands.lookup file <;> simp

theorem nested_nearest :
    NearestDatabase nestedEnvironment outerEntries
      (nestedEnvironment.fileSystem.ancestors (str "/a/y")) := by
  rw [nested_ancestors_y]
  exact .here rfl rfl

theorem findCommandForPath_returns_iff_nested :
    (findCommandForPath nestedEnvironment (str "/a/y") []).Returns ↔
      (∃ command, ([] : List (Bytes × Bytes)).lookup (str "/a/y") = some command) ∨
        Tolerated nestedEnvironment outerEntries :=
  findCommandForPath_returns_iff nested_nearest

/-- A file system where every database is an empty array. -/
def emptyDatabases : Environment where
  rapidjson := { parse := fun s => if s = str "[]" then some (.array []) else none,
                 write := fun _ => [] }
  fileSystem := { nestedEnvironment.fileSystem with
    read := fun path => if nestedFiles.lookup path = none then [] else str "[]" }
  wave := fun _ _ => .ok ()
  freed := .intact

/-- With an empty database the lookup indexes an empty array. -/
theorem not_returns_empty :
    NearestDatabase emptyDatabases [] (emptyDatabases.fileSystem.ancestors (str "/a/y")) ∧
      ¬(findCommandForPath emptyDatabases (str "/a/y") []).Returns := by
  have hancestors : emptyDatabases.fileSystem.ancestors (str "/a/y") =
      str "/a" :: emptyDatabases.fileSystem.ancestors (str "/a") := by
    rw [FileSystem.ancestors, dif_neg (by decide)]
    rfl
  have hnearest : NearestDatabase emptyDatabases []
      (emptyDatabases.fileSystem.ancestors (str "/a/y")) := by
    rw [hancestors]
    exact .here rfl rfl
  have hsearch : findCommandForPath emptyDatabases (str "/a/y") [] =
      .error (.json .outOfBounds) := by
    unfold findCommandForPath
    rw [hancestors]
    rfl
  refine ⟨hnearest, ?_⟩
  rw [hsearch]
  exact Except.not_returns_error _

end P4LS
