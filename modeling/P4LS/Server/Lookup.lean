import P4LS.Library.Memo
import P4LS.Server.Commands

/-!
# Commands by any order of lookups

The commands of a database stay in the cache once it has been opened, and the
cache is asked before the directories are searched.  A sequence of lookups is
compared with the search of the nearest database alone, by the compiler that its
first command names.
-/

namespace P4LS

open Bytes Json

/-! ## What the nearest database has for a file -/

/-- The string a member of an entry is. -/
def stringMember (name : Bytes) (it : Json) : Option Bytes :=
  match it.get? name with
  | some (.string s) => some (cstr s)
  | _ => none

/-- The file of an entry and its rewritten command. -/
def entryOf (stdInclude : Bytes) (it : Json) : Option (Bytes × Bytes) := do
  let file ← stringMember (str "file") it
  let command ← stringMember (str "command") it
  let rewritten ← (rewriteCommand stdInclude command).toOption
  return (file, rewritten)

/-- The entries of a database, none if it is not an array. -/
def databaseEntries (env : Environment) (path : Bytes) : List Json :=
  match env.rapidjson.parse (cstr (env.fileSystem.read path)) with
  | some (.array entries) => entries
  | _ => []

/-- The include directory of a database, by the compiler that is read for its first command. -/
def databaseInclude (env : Environment) (entries : List Json) : Bytes :=
  match firstCompiler env entries >>= findStdInclude env.fileSystem with
  | .ok stdInclude => stdInclude
  | .error _ => []

/-- The commands a database lists, in its order. -/
def databaseCommands (env : Environment) (path : Bytes) : List (Bytes × Bytes) :=
  let entries := databaseEntries env path
  entries.filterMap (entryOf (databaseInclude env entries))

/-- The commands of the first of the directories that has a database. -/
def nearestCommands (env : Environment) : List Bytes → List (Bytes × Bytes)
  | [] => []
  | path :: paths =>
    let compileCommandsPath := env.fileSystem.append path (str "compile_commands.json")
    match env.fileSystem.status compileCommandsPath with
    | .ok true => databaseCommands env compileCommandsPath
    | _ => nearestCommands env paths

/-- The commands of the nearest database above a file. -/
def commandsAbove (env : Environment) (file : Bytes) : List (Bytes × Bytes) :=
  nearestCommands env (env.fileSystem.ancestors file)

/-- The search without a cache: the first command the nearest database lists for
the file, or the empty string.  The compiler is that of the first command, whatever
its string has become. -/
def uncached (env : Environment) (file : Bytes) : Bytes :=
  ((commandsAbove (env.withFreed .intact) file).lookup file).getD []

/-! ## One lookup -/

theorem stringMember_of_required {name s : Bytes} {it : Json}
    (h : it.requiredMember name getString = .ok s) : stringMember name it = some s := by
  obtain ⟨v, hv, hs⟩ := requiredMember_eq_ok.mp h
  rw [stringMember, hv]
  cases v with
  | string t =>
    cases hs
    rfl
  | _ => cases hs

theorem addCommand_eq_ok {stdInclude : Bytes} {commands commands' : List (Bytes × Bytes)}
    {it : Json} (h : addCommand stdInclude commands it = .ok commands') :
    ∃ entry, entryOf stdInclude it = some entry ∧
      commands' = Assoc.emplace entry.1 entry.2 commands := by
  obtain ⟨file, hfile, h⟩ := Except.bind_eq_ok.mp h
  obtain ⟨command, hcommand, h⟩ := Except.bind_eq_ok.mp h
  obtain ⟨rewritten, hrewritten, h⟩ := Except.bind_eq_ok.mp h
  cases h
  refine ⟨(file, rewritten), ?_, rfl⟩
  rw [entryOf, stringMember_of_required (checked_eq_ok.mp hfile),
    stringMember_of_required (checked_eq_ok.mp hcommand)]
  show (rewriteCommand stdInclude command).toOption >>= _ = _
  rw [hrewritten]
  rfl

/-- The loop over the entries adds those of the database. -/
theorem addCommands_eq_ok {stdInclude : Bytes} {entries : List Json}
    {commands commands' : List (Bytes × Bytes)}
    (h : entries.foldlM (addCommand stdInclude) commands = .ok commands') :
    commands' = Assoc.emplaceAll (entries.filterMap (entryOf stdInclude)) commands := by
  induction entries generalizing commands with
  | nil =>
    cases h
    rfl
  | cons it entries ih =>
    rw [List.foldlM_cons] at h
    obtain ⟨commands₁, hit, h⟩ := Except.bind_eq_ok.mp h
    obtain ⟨entry, hentry, rfl⟩ := addCommand_eq_ok hit
    rw [List.filterMap_cons_some hentry, Assoc.emplaceAll_cons]
    exact ih h

/-- A lookup answers with a command of its database and keeps all of them. -/
structure Opens (listed : List (Bytes × Bytes)) (file : Bytes) (commands : List (Bytes × Bytes))
    (answer : Bytes) (commands' : List (Bytes × Bytes)) : Prop where
  answer : answer = (listed.lookup file).getD []
  kept : ∀ key, commands'.lookup key = (commands.lookup key).or (listed.lookup key)

theorem Opens.nothing {file : Bytes} {commands : List (Bytes × Bytes)} :
    Opens [] file commands [] commands where
  answer := rfl
  kept _ := Option.or_none.symm

/-- The file is looked up once the entries are added, so a cache that has
nothing for it does not matter. -/
theorem Opens.emplaceAll {listed : List (Bytes × Bytes)} {file : Bytes}
    {commands : List (Bytes × Bytes)} (hmiss : commands.lookup file = none) :
    Opens listed file commands (((Assoc.emplaceAll listed commands).lookup file).getD [])
      (Assoc.emplaceAll listed commands) where
  answer := by rw [Assoc.lookup_emplaceAll, hmiss, Option.none_or]
  kept key := Assoc.lookup_emplaceAll key listed commands

theorem databaseCommands_of_array {env : Environment} {path : Bytes} {entries : List Json}
    (h : env.rapidjson.parse (cstr (env.fileSystem.read path)) = some (.array entries)) :
    databaseCommands env path = entries.filterMap (entryOf (databaseInclude env entries)) := by
  rw [databaseCommands, databaseEntries, h]

theorem databaseCommands_of_not_array {env : Environment} {path : Bytes}
    (h : ∀ entries, env.rapidjson.parse (cstr (env.fileSystem.read path)) ≠
      some (.array entries)) : databaseCommands env path = [] := by
  have hentries : databaseEntries env path = [] := by
    unfold databaseEntries
    split
    · rename_i entries hparse
      exact absurd hparse (h entries)
    · rfl
  rw [databaseCommands, hentries]
  rfl

theorem readDatabase_opens {env : Environment} {path file answer : Bytes}
    {commands commands' : List (Bytes × Bytes)} (hmiss : commands.lookup file = none)
    (h : readDatabase env path file commands = .ok (answer, commands')) :
    Opens (databaseCommands env path) file commands answer commands' := by
  unfold readDatabase at h
  split at h
  · rename_i entries hparse
    obtain ⟨compiler, hcompiler, h⟩ := Except.bind_eq_ok.mp h
    obtain ⟨stdInclude, hinclude, h⟩ := Except.bind_eq_ok.mp h
    obtain ⟨added, hadded, h⟩ := Except.bind_eq_ok.mp h
    cases h
    have hsearch : firstCompiler env entries >>= findStdInclude env.fileSystem = .ok stdInclude :=
      Except.bind_eq_ok.mpr ⟨compiler, hcompiler, hinclude⟩
    have hstd : databaseInclude env entries = stdInclude := by
      rw [databaseInclude, hsearch]
    rw [databaseCommands_of_array hparse, addCommands_eq_ok hadded, hstd]
    exact .emplaceAll hmiss
  · rename_i hparse
    cases h
    rw [databaseCommands_of_not_array hparse]
    exact .nothing

theorem searchDirectories_opens {env : Environment} {file answer : Bytes}
    {commands commands' : List (Bytes × Bytes)} {paths : List Bytes}
    (hmiss : commands.lookup file = none)
    (h : searchDirectories env file commands paths = .ok (answer, commands')) :
    Opens (nearestCommands env paths) file commands answer commands' := by
  induction paths with
  | nil =>
    cases h
    exact .nothing
  | cons path paths ih =>
    obtain ⟨isThere, hstatus, h⟩ := Except.bind_eq_ok.mp h
    rw [nearestCommands, hstatus]
    cases isThere with
    | true => exact readDatabase_opens hmiss h
    | false => exact ih h

/-- A file of which the cache has nothing is looked up in its nearest database. -/
theorem findCommandForPath_opens {env : Environment} {file answer : Bytes}
    {commands commands' : List (Bytes × Bytes)} (hmiss : commands.lookup file = none)
    (h : findCommandForPath env file commands = .ok (answer, commands')) :
    Opens (commandsAbove env file) file commands answer commands' := by
  unfold findCommandForPath at h
  rw [hmiss] at h
  exact searchDirectories_opens hmiss h

/-! ## A sequence of lookups -/

/-- A call of `find_command_for_path`, and what a read of destroyed strings gives by then. -/
structure Lookup where
  freed : FreedStorage
  file : Bytes

/-- The environment of a call. -/
def Lookup.env (env : Environment) (call : Lookup) : Environment := env.withFreed call.freed

/-- What the call would list for its file and others. -/
def Lookup.listed (env : Environment) (call : Lookup) : List (Bytes × Bytes) :=
  commandsAbove (call.env env) call.file

/-- The answers of calls of `find_command_for_path`, one after the other. -/
def findCommands (env : Environment) :
    List Lookup → List (Bytes × Bytes) → Except Fault (List Bytes)
  | [], _ => return []
  | call :: calls, commands => do
    let (command, commands) ← findCommandForPath (call.env env) call.file commands
    let rest ← findCommands env calls commands
    return command :: rest

/-- The commands of the databases that have been opened, `kept` first, and those of the call if it
opens one. -/
abbrev keepListed (env : Environment) : List (Bytes × Bytes) → Lookup → List (Bytes × Bytes) :=
  Memo.extend Lookup.file (Lookup.listed env)

/-- Every call has the uncached answer, from the databases opened before it or from its own. -/
abbrev Undisturbed (env : Environment) : List (Bytes × Bytes) → List Lookup → Prop :=
  Memo.Undisturbed Lookup.file (Lookup.listed env) [] (uncached env)

/-- The databases that are opened along a sequence of lookups can be read; of
those opened before it, `kept` has the commands. -/
def OpensReadable (env : Environment) (kept : List (Bytes × Bytes)) : List Lookup → Prop
  | [] => True
  | call :: calls =>
    CommandReadable (call.env env) call.file kept ∧
      OpensReadable env (keepListed env kept call) calls

/-- The cache has the commands of the databases that have been opened. -/
def SameCommands (kept commands : List (Bytes × Bytes)) : Prop :=
  ∀ file, commands.lookup file = kept.lookup file

section

variable {env : Environment} {call : Lookup} {calls : List Lookup} {answer : Bytes}
  {answers : List Bytes} {kept commands commands' : List (Bytes × Bytes)}

theorem SameCommands.opens (hsame : SameCommands kept commands)
    (hmiss : kept.lookup call.file = none)
    (h : Opens (call.listed env) call.file commands answer commands') :
    SameCommands (keepListed env kept call) commands' := by
  intro key
  rw [h.kept, hsame, keepListed, Memo.extend, hmiss, Assoc.lookup_append]

/-- A file the cache has is not looked up in its database. -/
theorem SameCommands.hit {command : Bytes} (hsame : SameCommands kept commands)
    (hkept : kept.lookup call.file = some command) :
    SameCommands (keepListed env kept call) commands := by
  rw [keepListed, Memo.extend, hkept]
  exact hsame

theorem findCommands_cons_eq_ok :
    findCommands env (call :: calls) commands = .ok (answer :: answers) ↔
      ∃ commands', findCommandForPath (call.env env) call.file commands = .ok (answer, commands') ∧
        findCommands env calls commands' = .ok answers := by
  refine Except.bind_eq_ok.trans ?_
  constructor
  · intro h
    obtain ⟨⟨command, commands'⟩, hcommand, h⟩ := h
    obtain ⟨rest, hrest, h⟩ := Except.bind_eq_ok.mp h
    cases h
    exact ⟨commands', hcommand, hrest⟩
  · intro h
    obtain ⟨commands', hcommand, hrest⟩ := h
    exact ⟨(answer, commands'), hcommand, Except.bind_eq_ok.mpr ⟨answers, hrest, rfl⟩⟩

theorem findCommandForPath_kept {env : Environment} {file command : Bytes}
    (hsame : SameCommands kept commands) (hkept : kept.lookup file = some command) :
    findCommandForPath env file commands = .ok (command, commands) := by
  unfold findCommandForPath
  rw [hsame, hkept]
  rfl

/-- A lookup comes back if its database can be read or is not asked, with the command that is kept
or that its database lists. -/
theorem findCommandForPath_eq_ok_iff (hsame : SameCommands kept commands) :
    (∃ commands', findCommandForPath (call.env env) call.file commands = .ok (answer, commands')) ↔
      CommandReadable (call.env env) call.file kept ∧
        ((kept.lookup call.file).or ((call.listed env).lookup call.file)).getD [] = answer := by
  cases hkept : kept.lookup call.file with
  | some command =>
    rw [findCommandForPath_kept hsame hkept]
    have hreadable : CommandReadable (call.env env) call.file kept := fun hnone => by
      rw [hkept] at hnone
      cases hnone
    constructor
    · intro h
      obtain ⟨commands', h⟩ := h
      cases h
      exact ⟨hreadable, rfl⟩
    · intro h
      obtain ⟨_, rfl⟩ := h
      exact ⟨commands, rfl⟩
  | none =>
    have hmiss : commands.lookup call.file = none := (hsame call.file).trans hkept
    constructor
    · intro h
      obtain ⟨commands', h⟩ := h
      have hreadable : CommandReadable (call.env env) call.file commands :=
        returns_findCommandForPath.mp ⟨_, h⟩
      exact ⟨fun _ => hreadable hmiss, (findCommandForPath_opens hmiss h).answer.symm⟩
    · intro h
      obtain ⟨hreadable, rfl⟩ := h
      obtain ⟨⟨answer, commands'⟩, h⟩ :=
        returns_findCommandForPath.mpr fun _ => hreadable hkept
      have hanswer := (findCommandForPath_opens hmiss h).answer
      rw [hanswer] at h
      exact ⟨commands', h⟩

/-- The cache goes on having the commands of the databases that have been opened. -/
theorem SameCommands.step (hsame : SameCommands kept commands)
    (h : findCommandForPath (call.env env) call.file commands = .ok (answer, commands')) :
    SameCommands (keepListed env kept call) commands' := by
  cases hkept : kept.lookup call.file with
  | some command =>
    rw [findCommandForPath_kept hsame hkept] at h
    cases h
    exact hsame.hit hkept
  | none =>
    have hmiss : commands.lookup call.file = none := (hsame call.file).trans hkept
    exact hsame.opens hkept (findCommandForPath_opens hmiss h)

end

/-- A sequence of lookups gives the uncached answers exactly when every lookup of
it does. -/
theorem findCommands_uncached_iff {env : Environment} {kept commands : List (Bytes × Bytes)}
    (hsame : SameCommands kept commands) (calls : List Lookup) :
    findCommands env calls commands = .ok (calls.map fun call => uncached env call.file) ↔
      OpensReadable env kept calls ∧ Undisturbed env kept calls := by
  induction calls generalizing kept commands with
  | nil => exact iff_of_true rfl ⟨trivial, trivial⟩
  | cons call calls ih =>
    rw [List.map_cons, findCommands_cons_eq_ok]
    constructor
    · intro h
      obtain ⟨commands', hcommand, hrest⟩ := h
      obtain ⟨hreadable, hanswer⟩ := (findCommandForPath_eq_ok_iff hsame).mp ⟨commands', hcommand⟩
      obtain ⟨hopens, hundisturbed⟩ := (ih (hsame.step hcommand)).mp hrest
      exact ⟨⟨hreadable, hopens⟩, hanswer, hundisturbed⟩
    · intro h
      obtain ⟨⟨hreadable, hopens⟩, hanswer, hundisturbed⟩ := h
      obtain ⟨commands', hcommand⟩ :=
        (findCommandForPath_eq_ok_iff hsame).mpr ⟨hreadable, hanswer⟩
      exact ⟨commands', hcommand, (ih (hsame.step hcommand)).mpr ⟨hopens, hundisturbed⟩⟩

/-! ## Whole file systems -/

abbrev IsAbsolute (path : Bytes) : Prop := path.head? = some (ch '/')

/-- The lookups of absolute paths with some storages. -/
def AbsoluteWith (storages : Set FreedStorage) (call : Lookup) : Prop :=
  call.freed ∈ storages ∧ IsAbsolute call.file

/-- The own databases of lookups give the uncached answers, and agree on the files they list. -/
abbrev DatabasesAgree (env : Environment) (storages : Set FreedStorage) : Prop :=
  Memo.Agree (AbsoluteWith storages) Lookup.file (Lookup.listed env) [] (uncached env)

/-- `exists` answers for every path, and the entries of a database that is an array are well formed
and not none. -/
structure Environment.WellFormed (env : Environment) : Prop where
  answers : ∀ path, (env.fileSystem.status path).Returns
  databases : ∀ path entries,
    env.rapidjson.parse (cstr (env.fileSystem.read path)) = some (.array entries) →
      entries ≠ [] ∧ ∀ it ∈ entries, EntryReadable it

theorem EntryReadable.firstToken {it : Json} (h : EntryReadable it) (rest : List Json) :
    ∃ compiler, FirstToken .intact (it :: rest) compiler := by
  obtain ⟨_, value, hvalue, s, rfl, htokens⟩ := h
  obtain ⟨compiler, arguments, hcons⟩ := List.exists_cons_of_ne_nil htokens
  exact ⟨compiler, it, rest, cstr s, cstr s, arguments, rfl,
    requiredMember_eq_ok.mpr ⟨.string s, hvalue, rfl⟩, rfl, hcons⟩

theorem Environment.WellFormed.directoriesReadable {env : Environment} (h : env.WellFormed)
    (paths : List Bytes) : DirectoriesReadable (env.withFreed .intact) paths := by
  induction paths with
  | nil => trivial
  | cons path paths ih =>
    refine ⟨h.answers _, fun _ entries hparse => ?_, fun _ => ih⟩
    obtain ⟨hne, hentries⟩ := h.databases _ entries hparse
    refine ⟨hentries, ?_⟩
    obtain ⟨first, rest, rfl⟩ := List.exists_cons_of_ne_nil hne
    obtain ⟨compiler, hcompiler⟩ := (hentries first List.mem_cons_self).firstToken rest
    exact ⟨compiler, hcompiler, fun _ => ⟨h.answers _, fun _ => h.answers _⟩⟩

theorem opensReadable_of_forall {env : Environment} {calls : List Lookup}
    (h : ∀ call ∈ calls,
      DirectoriesReadable (call.env env) (env.fileSystem.ancestors call.file))
    (kept : List (Bytes × Bytes)) : OpensReadable env kept calls := by
  induction calls generalizing kept with
  | nil => trivial
  | cons call calls ih =>
    rw [List.forall_mem_cons] at h
    exact ⟨fun _ => h.1, ih h.2 _⟩

theorem sameCommands_nil : SameCommands [] [] := fun _ => rfl

theorem always_uncached_iff {env : Environment} {storages : Set FreedStorage} :
    (∀ calls, (∀ call ∈ calls, AbsoluteWith storages call) →
        findCommands env calls [] = .ok (calls.map fun call => uncached env call.file)) ↔
      (∀ call, AbsoluteWith storages call →
          DirectoriesReadable (call.env env) (env.fileSystem.ancestors call.file)) ∧
        DatabasesAgree env storages := by
  rw [DatabasesAgree, ← Memo.undisturbed_iff_agree]
  constructor
  · intro h
    refine ⟨fun call hcall => ?_, fun calls hcalls => ?_⟩
    · have hone : ∀ c ∈ [call], AbsoluteWith storages c := fun c hc => by
        rwa [List.mem_singleton.mp hc]
      exact ((findCommands_uncached_iff sameCommands_nil [call]).mp (h _ hone)).1.1 rfl
    · exact ((findCommands_uncached_iff sameCommands_nil calls).mp (h calls hcalls)).2
  · intro h calls hcalls
    refine (findCommands_uncached_iff sameCommands_nil calls).mpr ⟨?_, h.2 calls hcalls⟩
    exact opensReadable_of_forall (fun call hcall => h.1 call (hcalls call hcall)) []

/-- Where every database can be read and destroyed strings are left alone, the databases have to
agree. -/
theorem Environment.WellFormed.always_uncached_iff {env : Environment} (h : env.WellFormed) :
    (∀ calls, (∀ call ∈ calls, AbsoluteWith {.intact} call) →
        findCommands env calls [] = .ok (calls.map fun call => uncached env call.file)) ↔
      DatabasesAgree env {.intact} := by
  refine P4LS.always_uncached_iff.trans (and_iff_right fun call hcall => ?_)
  have hintact : call.env env = env.withFreed .intact := congrArg env.withFreed hcall.1
  rw [hintact]
  exact h.directoriesReadable _

/-- Lookups do not depend on the lookups before them: for a sequence, exactly
when the databases it opens can be read and every file has the uncached answer in the
first of them that lists it, or in its own; for a file system, over all sequences in which
destroyed strings leave some storages, exactly when its databases can be read and agree on the
files they list. -/
theorem lookups_uncached_iff (env : Environment) :
    (∀ calls, findCommands env calls [] = .ok (calls.map fun call => uncached env call.file) ↔
      OpensReadable env [] calls ∧ Undisturbed env [] calls) ∧
    ∀ storages : Set FreedStorage,
      (∀ calls, (∀ call ∈ calls, AbsoluteWith storages call) →
          findCommands env calls [] = .ok (calls.map fun call => uncached env call.file)) ↔
        (∀ call, AbsoluteWith storages call →
            DirectoriesReadable (call.env env) (env.fileSystem.ancestors call.file)) ∧
          DatabasesAgree env storages :=
  ⟨findCommands_uncached_iff sameCommands_nil, fun _ => always_uncached_iff⟩

/-! ## Nested databases

A database in `/a` lists a file in `/a/b`, which has a database of its own. -/

def databaseEntry (file command : String) : Json :=
  .object [(str "file", .string (str file)), (str "command", .string (str command))]

theorem databaseEntry_readable {file command : String} (h : tokenize (cstr (str command)) ≠ []) :
    EntryReadable (databaseEntry file command) :=
  ⟨⟨_, rfl, _, rfl⟩, _, rfl, _, rfl, h⟩

def outerEntries : List Json := [databaseEntry "/a/y" "p4c", databaseEntry "/a/b/x" "p4c -A"]

def innerEntries : List Json := [databaseEntry "/a/b/x" "p4c -B"]

def outerContent : Bytes :=
  str "[\x7b\"file\":\"/a/y\",\"command\":\"p4c\"\x7d," ++
    str "\x7b\"file\":\"/a/b/x\",\"command\":\"p4c -A\"\x7d]"

def innerContent : Bytes := str "[\x7b\"file\":\"/a/b/x\",\"command\":\"p4c -B\"\x7d]"

def nestedDatabases : List (Bytes × Json) :=
  [(outerContent, .array outerEntries), (innerContent, .array innerEntries)]

def nestedParents : List (Bytes × Bytes) :=
  [(str "/a/b/x", str "/a/b"), (str "/a/y", str "/a"), (str "/a/b", str "/a"), (str "/a", str "/")]

def nestedFiles : List (Bytes × Bytes) :=
  [(str "/a/compile_commands.json", outerContent),
    (str "/a/b/compile_commands.json", innerContent)]

/-- Parent paths taken from a table are shorter where those of the table are. -/
theorem parent_shorter {parents : List (Bytes × Bytes)}
    (hshorter : ∀ entry ∈ parents, entry.2.length < entry.1.length) {path : Bytes}
    (h : (parents.lookup path).getD [] ≠ []) :
    ((parents.lookup path).getD []).length < path.length := by
  cases hparent : parents.lookup path with
  | none =>
    rw [hparent] at h
    exact absurd rfl h
  | some parent => exact hshorter (path, parent) (Assoc.mem_of_lookup hparent)

def nestedEnvironment : Environment where
  rapidjson := { parse := fun s => nestedDatabases.lookup s, write := fun _ => [] }
  fileSystem :=
    { parentPath := fun path => (nestedParents.lookup path).getD [],
      append := fun path name =>
        if path.getLast? = some (ch '/') then path ++ name else path ++ ch '/' :: name,
      status := fun path => .ok (nestedFiles.lookup path).isSome,
      read := fun path => (nestedFiles.lookup path).getD [],
      parentPath_shorter := fun _ => parent_shorter (by decide) }
  wave := fun _ _ => .ok ()
  freed := .intact

theorem nested_wellFormed : nestedEnvironment.WellFormed where
  answers path := ⟨_, rfl⟩
  databases path entries hparse := by
    have houter : ∀ it ∈ outerEntries, EntryReadable it := by
      intro it hit
      rcases List.mem_pair.mp hit with rfl | rfl <;> exact databaseEntry_readable (by decide)
    have hinner : ∀ it ∈ innerEntries, EntryReadable it := by
      intro it hit
      rw [List.mem_singleton.mp hit]
      exact databaseEntry_readable (by decide)
    have hmem : (cstr (nestedEnvironment.fileSystem.read path), Json.array entries) ∈
        nestedDatabases := Assoc.mem_of_lookup hparse
    rcases List.mem_pair.mp hmem with heq | heq
    · rw [Json.array.inj (Prod.ext_iff.mp heq).2]
      exact ⟨List.cons_ne_nil _ _, houter⟩
    · rw [Json.array.inj (Prod.ext_iff.mp heq).2]
      exact ⟨List.cons_ne_nil _ _, hinner⟩

theorem nested_ancestors_a :
    nestedEnvironment.fileSystem.ancestors (str "/a") = [str "/"] := by
  rw [FileSystem.ancestors, dif_neg (by decide), FileSystem.ancestors, dif_pos (by decide)]
  rfl

theorem nested_ancestors_y :
    nestedEnvironment.fileSystem.ancestors (str "/a/y") = [str "/a", str "/"] := by
  rw [FileSystem.ancestors, dif_neg (by decide)]
  exact congrArg (str "/a" :: ·) nested_ancestors_a

theorem nested_ancestors_x :
    nestedEnvironment.fileSystem.ancestors (str "/a/b/x") = [str "/a/b", str "/a", str "/"] := by
  rw [FileSystem.ancestors, dif_neg (by decide), FileSystem.ancestors, dif_neg (by decide)]
  exact congrArg (fun paths => str "/a/b" :: str "/a" :: paths) nested_ancestors_a

/-- A lookup with destroyed strings left alone. -/
def Lookup.intact (file : Bytes) : Lookup := ⟨.intact, file⟩

theorem nested_answers :
    findCommands nestedEnvironment [.intact (str "/a/y"), .intact (str "/a/b/x")] [] =
      .ok [str "p4lsd", str "p4lsd -A"] := by
  have hy : findCommandForPath nestedEnvironment (str "/a/y") [] = .ok (str "p4lsd",
      [(str "/a/y", str "p4lsd"), (str "/a/b/x", str "p4lsd -A")]) := by
    unfold findCommandForPath
    rw [nested_ancestors_y]
    rfl
  have hx : findCommandForPath nestedEnvironment (str "/a/b/x")
      [(str "/a/y", str "p4lsd"), (str "/a/b/x", str "p4lsd -A")] = .ok (str "p4lsd -A",
      [(str "/a/y", str "p4lsd"), (str "/a/b/x", str "p4lsd -A")]) := by
    unfold findCommandForPath
    rfl
  exact findCommands_cons_eq_ok.mpr ⟨_, hy, findCommands_cons_eq_ok.mpr ⟨_, hx, rfl⟩⟩

theorem nested_uncached : uncached nestedEnvironment (str "/a/b/x") = str "p4lsd -B" := by
  have hancestors : (nestedEnvironment.withFreed .intact).fileSystem.ancestors (str "/a/b/x") =
      [str "/a/b", str "/a", str "/"] := nested_ancestors_x
  rw [uncached, commandsAbove, hancestors]
  rfl

/-- After a lookup of a file of `/a`, the file of `/a/b` has the command of the
outer database, even if destroyed strings are left alone. -/
theorem not_uncached_nested :
    nestedEnvironment.WellFormed ∧
      ¬ ∀ calls, (∀ call ∈ calls, AbsoluteWith {.intact} call) →
        findCommands nestedEnvironment calls [] =
          .ok (calls.map fun call => uncached nestedEnvironment call.file) := by
  refine ⟨nested_wellFormed, fun h => ?_⟩
  have hcalls : ∀ call ∈ [Lookup.intact (str "/a/y"), .intact (str "/a/b/x")],
      AbsoluteWith {.intact} call := by
    intro call hcall
    rcases List.mem_pair.mp hcall with rfl | rfl <;> exact ⟨rfl, rfl⟩
  have hanswers := h _ hcalls
  rw [nested_answers, List.map_cons, List.map_cons] at hanswers
  have hsecond := (List.cons.inj (List.cons.inj (Except.ok.inj hanswers)).2).1
  exact absurd (hsecond.trans nested_uncached) (by decide)

end P4LS
