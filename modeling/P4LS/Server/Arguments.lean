import P4LS.Server.Databases
import P4LS.Unit.Arguments

/-!
# From a database to the arguments of a unit

`find_command_for_path` cuts a command into tokens, replaces the first of them and joins them
again, and the unit of the file cuts the result once more.  Neither the include directory nor a
token has a blank, so what comes out at the end are the tokens that went in.  Only the include
directory may be another one: its compiler is read from the storage of a destroyed string.
-/

namespace P4LS

open Bytes Json

/-- The path functions work on the text of a path: a parent path is a beginning of it, and a
relative name is added behind it, with or without a separator. -/
structure FileSystem.Textual (fs : FileSystem) : Prop where
  parentPath : ∀ path, fs.parentPath path <+: path
  append : ∀ path name, name.head? ≠ some (ch '/') →
    fs.append path name = path ++ name ∨ fs.append path name = path ++ ch '/' :: name

/-! ## The include directory -/

/-- A byte that is not in the path and not added to it. -/
theorem FileSystem.Textual.not_mem_append {fs : FileSystem} (h : fs.Textual) {c : UInt8}
    (hc : c ≠ ch '/') {path name : Bytes} (hname : name.head? ≠ some (ch '/')) (hpath : c ∉ path)
    (hc' : c ∉ name) : c ∉ fs.append path name := by
  rcases h.append path name hname with heq | heq
  · rw [heq, List.mem_append, not_or]
    exact ⟨hpath, hc'⟩
  · rw [heq, List.mem_append, List.mem_cons, not_or, not_or]
    exact ⟨hpath, hc, hc'⟩

theorem zero_not_mem_cstr (s : Bytes) : 0 ∉ cstr s := fun h =>
  absurd (List.mem_takeWhile_imp h) (by decide)

theorem not_mem_cstr {c : UInt8} {s : Bytes} (h : c ∉ s) : c ∉ cstr s := fun hc =>
  h ((List.takeWhile_prefix _).subset hc)

/-- The include directory has no blank, as the compiler has none, and no NUL. -/
theorem findStdInclude_plain {fs : FileSystem} (hfs : fs.Textual) {compiler stdInclude : Bytes}
    (hcompiler : ch ' ' ∉ compiler) (h : findStdInclude fs compiler = .ok stdInclude) :
    ch ' ' ∉ stdInclude ∧ 0 ∉ stdInclude := by
  have hroot : ch ' ' ∉ fs.parentPath (fs.parentPath compiler) := fun hmem =>
    hcompiler ((hfs.parentPath _).subset ((hfs.parentPath _).subset hmem))
  have hname : ∀ path name : Bytes, name.head? ≠ some (ch '/') → ch ' ' ∉ path → ch ' ' ∉ name →
      ch ' ' ∉ fs.append path name := fun _ _ hhead hpath hblank =>
    hfs.not_mem_append (by decide) hhead hpath hblank
  unfold findStdInclude at h
  split at h
  · obtain ⟨isShare, _, h⟩ := Except.bind_eq_ok.mp h
    cases isShare with
    | true =>
      cases h
      have hshare := hname _ (str "share") (by decide) hroot (by decide)
      have hp4c := hname _ (str "p4c") (by decide) hshare (by decide)
      exact ⟨not_mem_cstr (hname _ _ (by decide) hp4c (by decide)), zero_not_mem_cstr _⟩
    | false =>
      obtain ⟨isInclude, _, h⟩ := Except.bind_eq_ok.mp h
      cases isInclude with
      | true =>
        cases h
        exact ⟨not_mem_cstr (hname _ _ (by decide) hroot (by decide)), zero_not_mem_cstr _⟩
      | false =>
        cases h
        exact ⟨List.not_mem_nil, List.not_mem_nil⟩
  · cases h
    exact ⟨List.not_mem_nil, List.not_mem_nil⟩

/-! ## The command of an entry -/

/-- The arguments the include directory adds. -/
def includeArguments (stdInclude : Bytes) : List Bytes :=
  if stdInclude = [] then [] else [str "-I", stdInclude]

theorem mem_includeArguments {stdInclude argument : Bytes}
    (h : argument ∈ includeArguments stdInclude) :
    argument ≠ [] ∧ (argument = str "-I" ∨ argument = stdInclude) := by
  unfold includeArguments at h
  split at h
  · exact absurd h List.not_mem_nil
  · rename_i hne
    rcases List.mem_pair.mp h with rfl | rfl
    · exact ⟨by decide, .inl rfl⟩
    · exact ⟨hne, .inr rfl⟩

/-- The words of the rewritten command. -/
def rewrittenWords (stdInclude command : Bytes) : List Bytes :=
  includeArguments stdInclude ++ (tokenize command).tail

def rewritten (stdInclude command : Bytes) : Bytes :=
  str "p4lsd" ++ (rewrittenWords stdInclude command).flatMap (ch ' ' :: ·)

theorem rewriteCommand_eq (stdInclude : Bytes) {command : Bytes} (h : tokenize command ≠ []) :
    rewriteCommand stdInclude command = .ok (rewritten stdInclude command) := by
  unfold rewriteCommand rewritten rewrittenWords
  cases htokens : tokenize command with
  | nil => exact absurd htokens h
  | cons compiler arguments =>
    rw [List.tail_cons, List.flatMap_append, includeArguments]
    have hdash : str " -I " = ch ' ' :: (str "-I" ++ [ch ' ']) := by decide
    by_cases hnone : stdInclude = []
    · simp [hnone]
    · simp [hnone, hdash]

section

variable {stdInclude command : Bytes}

/-- The words of the rewritten command are words, and have no NUL. -/
theorem rewrittenWords_plain (hinclude : ch ' ' ∉ stdInclude ∧ 0 ∉ stdInclude)
    (hcommand : 0 ∉ command) {w : Bytes} (hw : w ∈ rewrittenWords stdInclude command) :
    w ≠ [] ∧ ch ' ' ∉ w ∧ 0 ∉ w := by
  rcases List.mem_append.mp hw with hw | hw
  · obtain ⟨hne, rfl | rfl⟩ := mem_includeArguments hw
    · decide
    · exact ⟨hne, hinclude⟩
  · obtain ⟨hne, hblank, hsub⟩ := Words.of_mem_words (List.mem_of_mem_tail hw)
    exact ⟨hne, hblank, fun hzero => hcommand (hsub 0 hzero)⟩

/-- The rewritten command has these words again, and no NUL. -/
theorem tokenize_rewritten (hinclude : ch ' ' ∉ stdInclude ∧ 0 ∉ stdInclude)
    (hcommand : 0 ∉ command) :
    tokenize (rewritten stdInclude command) = str "p4lsd" :: rewrittenWords stdInclude command ∧
      0 ∉ rewritten stdInclude command := by
  have hplain : ∀ w ∈ rewrittenWords stdInclude command, w ≠ [] ∧ ch ' ' ∉ w ∧ 0 ∉ w :=
    fun _ hw => rewrittenWords_plain hinclude hcommand hw
  constructor
  · rw [tokenize]
    refine Words.words_joined (List.forall_mem_cons.mpr ⟨by decide, fun w hw => ?_⟩)
    exact ⟨(hplain w hw).1, (hplain w hw).2.1⟩
  · rw [rewritten, List.mem_append, not_or]
    refine ⟨by decide, fun hzero => ?_⟩
    obtain ⟨w, hw, hmem⟩ := List.mem_flatMap.mp hzero
    rcases List.mem_cons.mp hmem with heq | hmem
    · exact absurd heq (by decide)
    · exact (hplain w hw).2.2 hmem

end

/-! ## The entries of a database -/

/-- The command of a readable entry has a token, and as a C string no NUL. -/
theorem EntryReadable.command_plain {it : Json} (h : EntryReadable it) {command : Bytes}
    (hcommand : stringMember (str "command") it = some command) :
    tokenize command ≠ [] ∧ 0 ∉ command := by
  obtain ⟨v, hv, hs⟩ := requiredMember_eq_ok.mp (stringMember_eq_some_iff.mp hcommand)
  obtain ⟨_, v', hv', s, rfl, htokens⟩ := h
  rw [hv] at hv'
  cases hv'
  cases hs
  exact ⟨htokens, zero_not_mem_cstr s⟩

section

variable {stdInclude theFile theCommand command : Bytes} {it : Json}

theorem entryOf_eq (hfile : stringMember (str "file") it = some theFile)
    (hcommand : stringMember (str "command") it = some command) (htokens : tokenize command ≠ []) :
    entryOf stdInclude it = some (theFile, rewritten stdInclude command) := by
  rw [entryOf, hfile, hcommand]
  show (rewriteCommand stdInclude command).toOption >>= _ = _
  rw [rewriteCommand_eq stdInclude htokens]
  rfl

/-- The round for an entry adds its command, unless its file has one. -/
theorem addCommand_eq (hfile : stringMember (str "file") it = some theFile)
    (hcommand : stringMember (str "command") it = some command) (htokens : tokenize command ≠ [])
    (commands : List (Bytes × Bytes)) :
    addCommand stdInclude commands it =
      .ok (Assoc.emplace theFile (rewritten stdInclude command) commands) := by
  refine Except.bind_eq_ok.mpr ⟨theFile, ?_, Except.bind_eq_ok.mpr ⟨command, ?_, ?_⟩⟩
  · exact checked_eq_ok.mpr (stringMember_eq_some_iff.mp hfile)
  · exact checked_eq_ok.mpr (stringMember_eq_some_iff.mp hcommand)
  · exact Except.bind_eq_ok.mpr ⟨_, rewriteCommand_eq stdInclude htokens, rfl⟩

theorem entryOf_fst {entry : Bytes × Bytes} (h : entryOf stdInclude it = some entry) :
    stringMember (str "file") it = some entry.1 := by
  obtain ⟨file, hfile, h⟩ := Option.bind_eq_some_iff.mp h
  obtain ⟨_, _, h⟩ := Option.bind_eq_some_iff.mp h
  obtain ⟨_, _, h⟩ := Option.bind_eq_some_iff.mp h
  cases h
  exact hfile

/-- A file is listed by the first entry that names it. -/
theorem lookup_first {before : List Json}
    (hbefore : ∀ other ∈ before, stringMember (str "file") other ≠ some theFile)
    (hit : entryOf stdInclude it = some (theFile, theCommand)) (after : List Json) :
    ((before ++ it :: after).filterMap (entryOf stdInclude)).lookup theFile = some theCommand := by
  have hmissing : (before.filterMap (entryOf stdInclude)).lookup theFile = none := by
    rw [List.lookup_eq_none_iff]
    intro entry hentry
    obtain ⟨other, hother, heq⟩ := List.mem_filterMap.mp hentry
    rw [bne_iff_ne]
    intro hfile
    exact hbefore other hother (hfile ▸ entryOf_fst heq)
  rw [List.filterMap_append, List.filterMap_cons_some hit, Assoc.lookup_append, hmissing,
    List.lookup_cons_self, Option.none_or]

end

section

variable {env : Environment} {entries : List Json} {compiler stdInclude : Bytes}

theorem NearestDatabase.nearestCommands_eq {paths : List Bytes}
    (h : NearestDatabase env entries paths) :
    nearestCommands env paths = entries.filterMap (entryOf (databaseInclude env entries)) := by
  induction h with
  | here hstatus hparse =>
    rw [nearestCommands, hstatus]
    exact databaseCommands_of_array hparse
  | above hstatus _ ih =>
    rw [nearestCommands, hstatus]
    exact ih

theorem FirstToken.databaseInclude_eq (h : FirstToken env.freed entries compiler)
    (hinclude : findStdInclude env.fileSystem compiler = .ok stdInclude) :
    databaseInclude env entries = stdInclude := by
  have hsearch : firstCompiler env entries >>= findStdInclude env.fileSystem = .ok stdInclude :=
    Except.bind_eq_ok.mpr ⟨compiler, firstCompiler_eq_ok_iff.mpr h, hinclude⟩
  rw [databaseInclude, hsearch]

/-- The compiler is a token, so it has no blank, and neither has the directory beside it. -/
theorem FirstToken.include_plain {fs : FileSystem} (hfs : fs.Textual) {freed : FreedStorage}
    (h : FirstToken freed entries compiler)
    (hinclude : findStdInclude fs compiler = .ok stdInclude) :
    ch ' ' ∉ stdInclude ∧ 0 ∉ stdInclude := by
  obtain ⟨_, _, _, storage, arguments, _, _, _, htokens⟩ := h
  have htoken : compiler ∈ tokenize storage := htokens ▸ List.mem_cons_self
  exact findStdInclude_plain hfs (Words.of_mem_words htoken).2.1 hinclude

/-- The first entry of a file is what a lookup of it finds in its database. -/
theorem findCommandForPath_first {before after : List Json} {it : Json}
    {theFile theCommand : Bytes} (htolerated : Tolerated env entries)
    (hsplit : entries = before ++ it :: after)
    (hbefore : ∀ other ∈ before, stringMember (str "file") other ≠ some theFile)
    (hit : entryOf (databaseInclude env entries) it = some (theFile, theCommand))
    (hnearest : NearestDatabase env entries (env.fileSystem.ancestors theFile))
    {commands : List (Bytes × Bytes)} (hmiss : commands.lookup theFile = none) :
    ∃ commands', findCommandForPath env theFile commands = .ok (theCommand, commands') := by
  have hreturns : (findCommandForPath env theFile commands).Returns :=
    returns_findCommandForPath.mpr fun _ => hnearest.directoriesReadable_iff.mpr htolerated
  obtain ⟨⟨answer, commands'⟩, hfound⟩ := hreturns
  have hanswer := (findCommandForPath_opens hmiss hfound).answer
  have hlisted := lookup_first hbefore hit after
  rw [← hsplit, ← hnearest.nearestCommands_eq] at hlisted
  rw [commandsAbove, hlisted, Option.getD_some] at hanswer
  exact ⟨commands', by rw [hfound, hanswer]⟩

theorem includeArguments_inj {inc inc' : Bytes} :
    includeArguments inc = includeArguments inc' ↔ inc = inc' := by
  refine ⟨fun h => ?_, congrArg includeArguments⟩
  unfold includeArguments at h
  by_cases hnone : inc = [] <;> by_cases hnone' : inc' = []
  · rw [hnone, hnone']
  · rw [if_pos hnone, if_neg hnone'] at h
    cases h
  · rw [if_neg hnone, if_pos hnone'] at h
    cases h
  · rw [if_neg hnone, if_neg hnone'] at h
    exact (List.cons.inj (List.cons.inj h).2).1

/-- The command that is made of an entry, with the include directory that the lookup finds, gives a
unit some arguments.  A lookup of the file of the entry finds this command, if the entry is the
first of its file in the nearest database and nothing is in the cache. -/
def EntryGives (env : Environment) (before : List Json) (it : Json) (after : List Json)
    (arguments : List Bytes) : Prop :=
  ∃ compiler stdInclude theFile theCommand,
    firstCompiler env (before ++ it :: after) = .ok compiler ∧
    findStdInclude env.fileSystem compiler = .ok stdInclude ∧
    (∀ commands, addCommand stdInclude commands it =
      .ok (Assoc.emplace theFile theCommand commands)) ∧
    ((∀ other ∈ before, stringMember (str "file") other ≠ some theFile) →
      NearestDatabase env (before ++ it :: after) (env.fileSystem.ancestors theFile) →
      ∀ commands, commands.lookup theFile = none → ∃ commands',
        findCommandForPath env theFile commands = .ok (theCommand, commands')) ∧
    ∀ wave unitPath text unit, P4File.create wave theCommand unitPath text = .ok unit →
      unit.arguments = arguments

/-- What an entry gives, once the compiler has been read. -/
theorem FirstToken.entryGives (hfs : env.fileSystem.Textual) {before after : List Json} {it : Json}
    (hreadable : ∀ it' ∈ before ++ it :: after, EntryReadable it')
    (hcompiler : FirstToken env.freed (before ++ it :: after) compiler)
    (hinclude : findStdInclude env.fileSystem compiler = .ok stdInclude) {command : Bytes}
    (hcommand : stringMember (str "command") it = some command) :
    EntryGives env before it after
      (str "p4lsd" :: (includeArguments stdInclude ++ (tokenize command).tail)) := by
  have hit := hreadable it (List.mem_append_right before List.mem_cons_self)
  obtain ⟨value, hvalue, s, rfl⟩ := hit.1
  have hfile : stringMember (str "file") it = some (cstr s) := by rw [stringMember, hvalue]
  obtain ⟨htokens, hzero⟩ := hit.command_plain hcommand
  obtain ⟨hagain, hnul⟩ := tokenize_rewritten (hcompiler.include_plain hfs hinclude) hzero
  refine ⟨compiler, stdInclude, cstr s, rewritten stdInclude command,
    firstCompiler_eq_ok_iff.mpr hcompiler, hinclude, addCommand_eq hfile hcommand htokens,
    fun hbefore hnearest commands hmiss => ?_, fun wave unitPath text unit hunit => ?_⟩
  · have htolerated : Tolerated env (before ++ it :: after) :=
      ⟨hreadable, compiler, hcompiler, returns_findStdInclude.mp ⟨_, hinclude⟩⟩
    have hentry : entryOf (databaseInclude env (before ++ it :: after)) it =
        some (cstr s, rewritten stdInclude command) := by
      rw [hcompiler.databaseInclude_eq hinclude]
      exact entryOf_eq hfile hcommand htokens
    exact findCommandForPath_first htolerated rfl hbefore hentry hnearest hmiss
  · exact (P4File.create_arguments hnul hunit).trans hagain

/-- An entry gives one list of arguments. -/
theorem EntryGives.unique {before after : List Json} {it : Json} {arguments arguments' : List Bytes}
    (h : EntryGives env before it after arguments)
    (h' : EntryGives env before it after arguments') : arguments = arguments' := by
  obtain ⟨compiler, inc, theFile, theCommand, hcompiler, hinc, hadd, _, hunit⟩ := h
  obtain ⟨compiler', inc', theFile', theCommand', hcompiler', hinc', hadd', _, hunit'⟩ := h'
  obtain rfl : compiler = compiler' := Except.ok.inj (hcompiler.symm.trans hcompiler')
  obtain rfl : inc = inc' := Except.ok.inj (hinc.symm.trans hinc')
  have hsame : theCommand = theCommand' := by
    have hentry := Except.ok.inj ((hadd []).symm.trans (hadd' []))
    exact (Prod.ext_iff.mp (List.cons.inj hentry).1).2
  rw [← hunit (fun _ _ => .ok ()) [] [] _ rfl, hsame]
  exact hunit' (fun _ _ => .ok ()) [] [] _ rfl

/-- The arguments of an entry survive, with the include directory beside the compiler of the first
command, exactly when the storage that the string of this command was in names a compiler with the
same include directory. -/
theorem arguments_survive_iff (hfs : env.fileSystem.Textual) {before after : List Json} {it : Json}
    (hreadable : ∀ it' ∈ before ++ it :: after, EntryReadable it')
    (_hcompiler : FirstToken .intact (before ++ it :: after) compiler)
    (hinclude : findStdInclude env.fileSystem compiler = .ok stdInclude) {command : Bytes}
    (hcommand : stringMember (str "command") it = some command) :
    EntryGives env before it after
        (str "p4lsd" :: (includeArguments stdInclude ++ (tokenize command).tail)) ↔
      ∃ found, FirstToken env.freed (before ++ it :: after) found ∧
        findStdInclude env.fileSystem found = findStdInclude env.fileSystem compiler := by
  constructor
  · intro h
    have hgiven := h
    obtain ⟨found, inc, _, _, hfound, hinc, _⟩ := hgiven
    have hread := firstCompiler_eq_ok_iff.mp hfound
    have hsame := h.unique (hread.entryGives hfs hreadable hinc hcommand)
    have harguments := List.append_cancel_right (List.cons.inj hsame).2
    rw [includeArguments_inj] at harguments
    exact ⟨found, hread, by rw [hinc, hinclude, harguments]⟩
  · intro h
    obtain ⟨found, hread, hsame⟩ := h
    exact hread.entryGives hfs hreadable (hsame.trans hinclude) hcommand

end

/-! ## A compiler with an include directory -/

def toolchainCommand : String := "/opt/p4/bin/p4c  -A /a"

def toolchainEntries : List Json := [databaseEntry "/a" toolchainCommand]

def toolchainContent : Bytes :=
  str "[\x7b\"file\":\"/a\",\"command\":\"/opt/p4/bin/p4c  -A /a\"\x7d]"

/-- The path of the compiler after its first eight bytes have been written over. -/
def linkedCompiler : Bytes := [0, 0, 0, 0, 0, 0, 0, 0] ++ str "bin/p4c"

def toolchainParents : List (Bytes × Bytes) :=
  [(str "/opt/p4/bin/p4c", str "/opt/p4/bin"), (str "/opt/p4/bin", str "/opt/p4"),
    (str "/opt/p4", str "/opt"), (str "/opt", str "/"), (str "/a", str "/"),
    (linkedCompiler, [0, 0, 0, 0, 0, 0, 0, 0] ++ str "bin")]

def toolchainFiles : List (Bytes × Bytes) :=
  [(str "/compile_commands.json", toolchainContent), (str "/opt/p4/share/p4c/p4include", [])]

def toolchainEnvironment (freed : FreedStorage) : Environment where
  rapidjson := { parse := fun s => if s = toolchainContent then some (.array toolchainEntries)
                   else none,
                 write := fun _ => [] }
  fileSystem :=
    { parentPath := fun path => (toolchainParents.lookup path).getD [],
      append := fun path name =>
        if path.getLast? = some (ch '/') then path ++ name else path ++ ch '/' :: name,
      status := fun path => .ok (toolchainFiles.lookup path).isSome,
      read := fun path => (toolchainFiles.lookup path).getD [],
      parentPath_shorter := fun _ => parent_shorter (by decide) }
  wave := fun _ _ => .ok ()
  freed := freed

theorem toolchain_textual (freed : FreedStorage) :
    (toolchainEnvironment freed).fileSystem.Textual where
  parentPath path := by
    show (toolchainParents.lookup path).getD [] <+: path
    cases hparent : toolchainParents.lookup path with
    | none => exact List.nil_prefix
    | some parent =>
      have hprefix : ∀ entry ∈ toolchainParents, entry.2 <+: entry.1 := by decide
      exact hprefix (path, parent) (Assoc.mem_of_lookup hparent)
  append path name _ := by
    by_cases hslash : path.getLast? = some (ch '/')
    · exact .inl (if_pos hslash)
    · exact .inr (if_neg hslash)

theorem toolchain_readable : ∀ it ∈ toolchainEntries, EntryReadable it := by
  intro it hit
  rw [List.mem_singleton.mp hit]
  exact databaseEntry_readable (by decide)

theorem toolchain_firstToken : FirstToken .intact toolchainEntries (str "/opt/p4/bin/p4c") :=
  ⟨_, [], str toolchainCommand, _, [str "-A", str "/a"], rfl, rfl, rfl, by decide⟩

theorem toolchain_include (freed : FreedStorage) :
    findStdInclude (toolchainEnvironment freed).fileSystem (str "/opt/p4/bin/p4c") =
      .ok (str "/opt/p4/share/p4c/p4include") := rfl

/-- The first eight bytes of the storage have become the link of a free list, which ends there. -/
def FreedStorage.linked : FreedStorage where
  read s := some (List.replicate (min 8 s.length) 0 ++ s.drop 8)
  length_read s storage h := by
    cases h
    rw [List.length_append, List.length_replicate, List.length_drop]
    omega

theorem arguments_survive_toolchain :
    EntryGives (toolchainEnvironment .intact) [] (databaseEntry "/a" toolchainCommand) []
        [str "p4lsd", str "-I", str "/opt/p4/share/p4c/p4include", str "-A", str "/a"] ↔
      ∃ found, FirstToken .intact toolchainEntries found ∧
        findStdInclude (toolchainEnvironment .intact).fileSystem found =
          findStdInclude (toolchainEnvironment .intact).fileSystem (str "/opt/p4/bin/p4c") :=
  @arguments_survive_iff (toolchainEnvironment .intact) _ _ (toolchain_textual .intact) [] [] _
    toolchain_readable toolchain_firstToken (toolchain_include .intact) _ rfl

/-- With the storage written over the include directory is lost. -/
theorem not_arguments_survive_linked :
    NearestDatabase (toolchainEnvironment .linked) toolchainEntries
        ((toolchainEnvironment .linked).fileSystem.ancestors (str "/a")) ∧
      (∀ it ∈ toolchainEntries, EntryReadable it) ∧
      FirstToken .intact toolchainEntries (str "/opt/p4/bin/p4c") ∧
      findStdInclude (toolchainEnvironment .linked).fileSystem (str "/opt/p4/bin/p4c") =
        .ok (str "/opt/p4/share/p4c/p4include") ∧
      (∃ commands', findCommandForPath (toolchainEnvironment .linked) (str "/a") [] =
        .ok (str "p4lsd -A /a", commands')) ∧
      ¬EntryGives (toolchainEnvironment .linked) [] (databaseEntry "/a" toolchainCommand) []
        [str "p4lsd", str "-I", str "/opt/p4/share/p4c/p4include", str "-A", str "/a"] := by
  have hancestors : (toolchainEnvironment .linked).fileSystem.ancestors (str "/a") =
      str "/" :: [] := by
    rw [FileSystem.ancestors, dif_neg (by decide), FileSystem.ancestors, dif_pos (by decide)]
    rfl
  have hread : FirstToken (toolchainEnvironment .linked).freed ([] ++ toolchainEntries)
      linkedCompiler :=
    ⟨_, [], str toolchainCommand, _, [str "-A", str "/a"], rfl, rfl, rfl, by decide⟩
  have hinclude : findStdInclude (toolchainEnvironment .linked).fileSystem linkedCompiler =
      .ok [] := rfl
  have hgives : EntryGives (toolchainEnvironment .linked) []
      (databaseEntry "/a" toolchainCommand) [] [str "p4lsd", str "-A", str "/a"] :=
    hread.entryGives (toolchain_textual .linked) toolchain_readable hinclude rfl
  have hlost : ¬EntryGives (toolchainEnvironment .linked) [] (databaseEntry "/a" toolchainCommand)
      [] [str "p4lsd", str "-I", str "/opt/p4/share/p4c/p4include", str "-A", str "/a"] := by
    intro h
    exact absurd (h.unique hgives) (by decide)
  refine ⟨?_, toolchain_readable, toolchain_firstToken, rfl, ?_, hlost⟩
  · rw [hancestors]
    exact .here rfl rfl
  · unfold findCommandForPath
    rw [hancestors]
    exact ⟨_, rfl⟩

end P4LS
