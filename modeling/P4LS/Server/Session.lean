import P4LS.Library.Documents
import P4LS.Library.Run
import P4LS.Server.Handlers

/-!
# Document sessions

The notifications about documents, and the store of open documents against the
texts the client has.  `didOpen` emplaces a unit and `didClose` only logs, so the
store keeps what it had when a document is opened again.
-/

namespace P4LS

open Bytes Documents

/-! ## Notifications -/

/-- The server reads nothing from the parameters of `didClose`. -/
inductive Notification where
  | didOpen (params : ParamsTextDocumentDidOpen)
  | didChange (params : ParamsTextDocumentDidChange)
  | didClose (path : Bytes)
  | didSave (params : ParamsTextDocumentDidSave)

def Notification.handle (env : Environment) : Notification → World → Except Fault World
  | didOpen params => onTextDocumentDidOpen env params
  | didChange params => onTextDocumentDidChange params
  | didClose _ => onTextDocumentDidClose
  | didSave _ => onTextDocumentDidSave

/-- One notification that is handled without a fault. -/
def NotifyStep (env : Environment) (world : World) (notification : Notification)
    (world' : World) : Prop :=
  notification.handle env world = .ok world'

/-- What the notification tells about the client's documents. -/
def Notification.event :
    Notification → Event Bytes Bytes (List TextDocumentContentChangeEvent)
  | didOpen params => .opened params.textDocument.uri.path params.textDocument.text
  | didChange params => .changed params.textDocument.uri.path params.contentChanges
  | didClose path => .closed path
  | didSave params => .saved params.textDocument.uri.path

/-- The text of a unit after `change_source_code` with a batch of changes. -/
def changedText (text : Bytes) (changes : List TextDocumentContentChangeEvent) : Bytes :=
  changes.foldl P4File.applyChange text

/-- The documents as the client has them after some notifications. -/
def clientDocuments (notifications : List Notification) : Ledger Bytes Bytes :=
  ledgerAfter changedText (notifications.map Notification.event)

/-- The texts in the store. -/
def World.texts (world : World) : Store Bytes Bytes :=
  fun path => (world.server.files.lookup path).map (·.sourceCode)

/-! ## The store after a notification -/

variable {env : Environment} {world world' : World}

theorem texts_didOpen {params : ParamsTextDocumentDidOpen}
    (h : onTextDocumentDidOpen env params world = .ok world') :
    world'.texts = keep changedText world.texts
      (.opened params.textDocument.uri.path params.textDocument.text) := by
  obtain ⟨_, _, h⟩ := Except.bind_eq_ok.mp h
  obtain ⟨file, hfile, h⟩ := Except.bind_eq_ok.mp h
  cases h
  have htext : file.sourceCode = params.textDocument.text := (P4File.create_sourceCode hfile).1
  funext path
  by_cases hpath : path = params.textDocument.uri.path
  · subst hpath
    rw [keep, Function.update_self]
    cases hlookup : world.server.files.lookup params.textDocument.uri.path with
    | some old => simp [World.texts, Assoc.emplace_of_present hlookup, hlookup]
    | none => simp [World.texts, Assoc.lookup_emplace_self hlookup, hlookup, htext]
  · rw [keep, Function.update_of_ne hpath]
    simp [World.texts, Assoc.lookup_emplace_ne hpath]

theorem texts_didChange {params : ParamsTextDocumentDidChange}
    (h : onTextDocumentDidChange params world = .ok world') :
    world'.texts = keep changedText world.texts
      (.changed params.textDocument.uri.path params.contentChanges) := by
  cases h
  funext path
  by_cases hpath : path = params.textDocument.uri.path
  · subst hpath
    rw [keep, Function.update_self]
    simp [World.texts, Assoc.lookup_modify_self, Function.comp_def, changedText]
  · rw [keep, Function.update_of_ne hpath]
    simp [World.texts, Assoc.lookup_modify_ne hpath]

/-- The store works as a store that replaces nothing on opening. -/
theorem texts_step {notification : Notification} (h : NotifyStep env world notification world') :
    world'.texts = keep changedText world.texts notification.event := by
  cases notification with
  | didOpen params => exact texts_didOpen h
  | didChange params => exact texts_didChange h
  | didClose path =>
    cases h
    rfl
  | didSave params =>
    cases h
    rfl

theorem texts_run {start final : World} {notifications : List Notification}
    (hrun : Run (NotifyStep env) start notifications final) :
    final.texts = (notifications.map Notification.event).foldl (keep changedText) start.texts := by
  induction hrun with
  | nil _ => rfl
  | cons step _ ih =>
    rw [ih, texts_step step]
    rfl

/-- From a server without documents the store is the one of the events. -/
theorem texts_session {start final : World} {notifications : List Notification}
    (hstart : start.server.files = [])
    (hrun : Run (NotifyStep env) start notifications final) :
    final.texts = storeAfter changedText (notifications.map Notification.event) := by
  have hempty : start.texts = fun _ => none := by
    funext path
    rw [World.texts, hstart]
    rfl
  rw [texts_run hrun, hempty]
  rfl

/-- A notification about one path leaves the entries of all others alone. -/
theorem lookup_step_of_ne {notification : Notification} {path : Bytes}
    (h : NotifyStep env world notification world') (hpath : path ≠ notification.event.key) :
    world'.server.files.lookup path = world.server.files.lookup path := by
  cases notification with
  | didOpen params =>
    obtain ⟨_, _, h⟩ := Except.bind_eq_ok.mp h
    obtain ⟨_, _, h⟩ := Except.bind_eq_ok.mp h
    cases h
    exact Assoc.lookup_emplace_ne hpath _ _
  | didChange params =>
    have hne : path ≠ params.textDocument.uri.path := hpath
    cases h
    exact Assoc.lookup_modify_ne hne (·.changeSourceCode params.contentChanges) world.server.files
  | didClose path' =>
    cases h
    rfl
  | didSave params =>
    cases h
    rfl

/-! ## The session -/

/-- In every state of the session the entry of every open path has the client's
text, and a notification alters no entry but that of its path. -/
structure StoreFollows (env : Environment) (start : World) (notifications : List Notification) :
    Prop where
  current : ∀ earlier later world, notifications = earlier ++ later →
    Run (NotifyStep env) start earlier world →
      ∀ path text, clientDocuments earlier path = some ⟨true, text⟩ →
        ∃ file, world.server.files.lookup path = some file ∧ file.sourceCode = text
  others : ∀ earlier notification later world world',
    notifications = earlier ++ notification :: later → Run (NotifyStep env) start earlier world →
      NotifyStep env world notification world' → ∀ path, path ≠ notification.event.key →
        world'.server.files.lookup path = world.server.files.lookup path

theorem texts_eq_some {path text : Bytes} :
    world.texts path = some text ↔
      ∃ file, world.server.files.lookup path = some file ∧ file.sourceCode = text :=
  Option.map_eq_some_iff

/-- The store follows the client exactly as long as every document that is opened
again comes back with the text it was left with. -/
theorem storeFollows_iff {start final : World} {notifications : List Notification}
    (hstart : start.server.files = [])
    (hrun : Run (NotifyStep env) start notifications final) :
    StoreFollows env start notifications ↔
      Faithful changedText (notifications.map Notification.event) := by
  rw [← agrees_iff_faithful]
  constructor
  · intro h earlier later hsplit path text hopen
    obtain ⟨before, after, hnotifications, rfl, _⟩ := List.map_eq_append_iff.mp hsplit
    rw [hnotifications] at hrun
    obtain ⟨world, hearlier, _⟩ := hrun.split
    rw [← texts_session hstart hearlier]
    exact texts_eq_some.mpr (h.current before after world hnotifications hearlier path text hopen)
  · intro h
    refine ⟨fun earlier later world hsplit hearlier path text hopen => ?_,
      fun _ _ _ _ _ _ _ hstep path hpath => lookup_step_of_ne hstep hpath⟩
    rw [← texts_eq_some, texts_session hstart hearlier]
    have hevents : notifications.map Notification.event =
        earlier.map Notification.event ++ later.map Notification.event := by
      rw [hsplit, List.map_append]
    exact h _ _ hevents path text hopen

/-! ## A document that is opened again -/

/-- A world without files, where nothing is parsed. -/
def emptyEnvironment : Environment := .ofMessage [] .null []

theorem ancestors_empty (path : Bytes) : emptyEnvironment.fileSystem.ancestors path = [] := by
  rw [FileSystem.ancestors]
  exact dif_pos rfl

/-- Without files every command is empty, and every session runs. -/
theorem notify_empty (notification : Notification) (world : World) :
    ∃ world', NotifyStep emptyEnvironment world notification world' := by
  cases notification with
  | didOpen params =>
    have hcommand : (findCommandForPath emptyEnvironment params.textDocument.uri.path
        world.server.commands).Returns := by
      rw [returns_findCommandForPath]
      intro _
      rw [ancestors_empty]
      trivial
    obtain ⟨found, hfound⟩ := hcommand
    exact ⟨_, Except.bind_eq_ok.mpr ⟨found, hfound, rfl⟩⟩
  | didChange params => exact ⟨_, rfl⟩
  | didClose path => exact ⟨_, rfl⟩
  | didSave params => exact ⟨_, rfl⟩

theorem run_empty (notifications : List Notification) (world : World) :
    ∃ final, Run (NotifyStep emptyEnvironment) world notifications final := by
  induction notifications generalizing world with
  | nil => exact ⟨world, .nil world⟩
  | cons notification notifications ih =>
    obtain ⟨world', hstep⟩ := notify_empty notification world
    obtain ⟨final, hrest⟩ := ih world'
    exact ⟨final, .cons hstep hrest⟩

def openWith (text : Bytes) : Notification :=
  .didOpen { textDocument := { uri := { path := str "a.p4" }, languageId := str "p4",
                               version := 1, text := text } }

/-- A document that is closed and opened again. -/
def reopenedWith (text : Bytes) : List Notification :=
  [openWith (str "a"), .didClose (str "a.p4"), openWith text]

theorem reopenedWith_faithful :
    Faithful changedText ((reopenedWith (str "a")).map Notification.event) := by
  intro earlier key text later hsplit copy hcopy
  rcases earlier with _ | ⟨_, _ | ⟨_, _ | ⟨_, rest⟩⟩⟩
  · cases hcopy
  · cases hsplit
  · cases hsplit
    cases hcopy
    rfl
  · have hlength := congrArg List.length hsplit
    simp [reopenedWith] at hlength

theorem storeFollows_reopened :
    StoreFollows emptyEnvironment World.init (reopenedWith (str "a")) := by
  obtain ⟨final, hrun⟩ := run_empty (reopenedWith (str "a")) World.init
  exact (storeFollows_iff rfl hrun).mpr reopenedWith_faithful

/-- The store keeps the text of the first opening. -/
theorem not_storeFollows_reopened :
    Session changedText ((reopenedWith (str "b")).map Notification.event) ∧
      ∃ final, Run (NotifyStep emptyEnvironment) World.init (reopenedWith (str "b")) final ∧
        ¬ StoreFollows emptyEnvironment World.init (reopenedWith (str "b")) := by
  obtain ⟨final, hrun⟩ := run_empty (reopenedWith (str "b")) World.init
  refine ⟨?_, final, hrun, fun h => ?_⟩
  · refine ⟨fun copy hcopy => ?_, ⟨_, rfl⟩, fun copy hcopy => ?_, trivial⟩
    · cases hcopy
    · cases hcopy
      rfl
  · have hfinal := h.current (reopenedWith (str "b")) [] final (List.append_nil _).symm hrun
      (str "a.p4") (str "b") rfl
    rw [← texts_eq_some, texts_session rfl hrun] at hfinal
    have hstored : storeAfter changedText ((reopenedWith (str "b")).map Notification.event)
        (str "a.p4") = some (str "a") := rfl
    rw [hstored, Option.some.injEq, str_inj] at hfinal
    exact absurd hfinal (by decide)

end P4LS
