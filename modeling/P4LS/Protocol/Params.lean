import P4LS.Protocol.Capabilities

/-!
# Parameters

The `set_params_from_json` functions.  Beside each decoder stand the shape of
the values it reports success for and the shape of those it comes back from at
all; the second asks for nothing as long as a member that is asked for is
missing.
-/

namespace P4LS

open Bytes Json

/-! ## Positions and ranges -/

/-- An object with integers `line` and `character`. -/
def PositionShape (json : Json) : Prop :=
  Required (str "line") IsInt json ∧ Required (str "character") IsInt json

def PositionReadable : Json → Prop := Readable [str "line", str "character"] PositionShape

def RangeShape (json : Json) : Prop :=
  Required (str "start") PositionShape json ∧ Required (str "end") PositionShape json

theorem returns_positionOfJson {json : Json} :
    (Position.ofJson json).Returns ↔ PositionShape json := by
  refine returns_requiredMember_bind (fun _ => returns_getInt) fun line => ?_
  exact Except.returns_map.trans (returns_requiredMember fun _ => returns_getInt)

theorem returns_rangeOfJson {json : Json} :
    (Range.ofJson json).Returns ↔ RangeShape json := by
  refine returns_requiredMember_bind (fun _ => returns_positionOfJson) fun start => ?_
  exact Except.returns_map.trans (returns_requiredMember fun _ => returns_positionOfJson)

theorem PositionShape.members {json : Json} (h : PositionShape json) :
    json.Members [str "line", str "character"] := by
  simp [Members, h.1.members, h.2.members]

theorem returns_position {json : Json} :
    (Position.set json).run.Returns ↔ PositionReadable json :=
  returns_whenMembers (returns_read.trans returns_positionOfJson)

theorem gives_position {json : Json} :
    (Position.set json).run.Gives ↔ PositionShape json :=
  gives_whenMembers (gives_read.trans returns_positionOfJson) PositionShape.members

/-! ## Documents -/

/-- An object that names a document by its URI. -/
def DocumentShape : Json → Prop := Required (str "uri") IsString

def DocumentReadable : Json → Prop := Readable [str "uri"] DocumentShape

theorem returns_identifier {json : Json} :
    (TextDocumentIdentifier.set json).run.Returns ↔ DocumentReadable json :=
  returns_memberOf_read (fun _ => returns_getString)
    (fun _ => iff_of_true (Except.returns_run_pure _) trivial) (and_true _).symm.to_iff

theorem gives_identifier {json : Json} :
    (TextDocumentIdentifier.set json).run.Gives ↔ DocumentShape json :=
  gives_memberOf_read (fun _ => returns_getString)
    (fun _ => iff_of_true (Except.gives_run_pure _) trivial) (and_true _).symm.to_iff

/-- A document whose version, if it is there, is a number. -/
def VersionedShape (json : Json) : Prop :=
  DocumentShape json ∧ json.IsObject ∧ WhenPresent (str "version") IsInt json

def VersionedReadable : Json → Prop := Readable [str "uri"] VersionedShape

theorem returns_version {json : Json} :
    (json.find? (str "version") getInt).Returns ↔
      json.IsObject ∧ WhenPresent (str "version") IsInt json :=
  returns_find? fun _ => returns_getInt

theorem returns_versioned {json : Json} :
    (VersionedTextDocumentIdentifier.set json).run.Returns ↔ VersionedReadable json := by
  refine (Except.returns_run_bind_const fun identifier => returns_read_last returns_version).trans
    ?_
  rw [returns_identifier, gives_identifier, VersionedReadable, DocumentReadable, Readable, Readable,
    VersionedShape, and_assoc]
  refine and_congr_right fun _ => ?_
  constructor
  · intro h hmem
    exact ⟨h.1 hmem, h.2 (h.1 hmem)⟩
  · intro h
    refine ⟨fun hmem => (h hmem).1, fun hdoc => (h ?_).2⟩
    rw [Members, List.forall_mem_singleton]
    exact hdoc.members

theorem gives_versioned {json : Json} :
    (VersionedTextDocumentIdentifier.set json).run.Gives ↔ VersionedShape json := by
  refine (Except.gives_run_bind_const fun identifier => gives_read_last returns_version).trans ?_
  rw [gives_identifier]
  rfl

def ItemShape (json : Json) : Prop :=
  Required (str "uri") IsString json ∧ Required (str "languageId") IsString json ∧
    Required (str "version") IsInt json ∧ Required (str "text") IsString json

def ItemReadable : Json → Prop :=
  Readable [str "uri", str "languageId", str "version", str "text"] ItemShape

theorem returns_item {json : Json} :
    (TextDocumentItem.set json).run.Returns ↔ ItemReadable json := by
  apply returns_whenMembers
  rw [returns_read]
  refine returns_requiredMember_bind (fun _ => returns_getString) fun uri => ?_
  refine returns_requiredMember_bind (fun _ => returns_getString) fun languageId => ?_
  refine returns_requiredMember_bind (fun _ => returns_getInt) fun version => ?_
  exact Except.returns_map.trans (returns_requiredMember fun _ => returns_getString)

/-! ## Changes -/

def EventShape (json : Json) : Prop :=
  Required (str "text") IsString json ∧
    (json.IsObject ∧ WhenPresent (str "range") RangeShape json) ∧
    json.IsObject ∧ WhenPresent (str "rangeLength") IsInt json

def EventReadable : Json → Prop := Readable [str "text"] EventShape

theorem returns_eventRange {json : Json} :
    (json.find? (str "range") Range.ofJson).Returns ↔
      json.IsObject ∧ WhenPresent (str "range") RangeShape json :=
  returns_find? fun _ => returns_rangeOfJson

theorem returns_eventRangeLength {json : Json} :
    (json.find? (str "rangeLength") fun it => UInt32.ofInt <$> it.getInt).Returns ↔
      json.IsObject ∧ WhenPresent (str "rangeLength") IsInt json :=
  returns_find? fun _ => Except.returns_map.trans returns_getInt

theorem returns_event {json : Json} :
    (TextDocumentContentChangeEvent.set json).run.Returns ↔ EventReadable json :=
  returns_memberOf_read (fun _ => returns_getString)
    (fun _ => returns_read_bind returns_eventRange fun _ =>
      returns_read_last returns_eventRangeLength) Iff.rfl

theorem gives_event {json : Json} :
    (TextDocumentContentChangeEvent.set json).run.Gives ↔ EventShape json :=
  gives_memberOf_read (fun _ => returns_getString)
    (fun _ => gives_read_bind returns_eventRange fun _ =>
      gives_read_last returns_eventRangeLength) Iff.rfl

/-- The loop over the changes stops at the first that cannot be set. -/
def EventsReadable : List Json → Prop
  | [] => True
  | e :: rest => EventReadable e ∧ (EventShape e → EventsReadable rest)

theorem returns_events (es : List Json) :
    (es.mapM TextDocumentContentChangeEvent.set).run.Returns ↔ EventsReadable es := by
  induction es with
  | nil => exact iff_of_true (Except.returns_run_pure _) trivial
  | cons e es ih =>
    rw [List.mapM_cons,
      Except.returns_run_bind_const fun event => Except.returns_run_last.trans ih,
      returns_event, gives_event]
    rfl

/-! ## Parameters of the methods

The methods that read no members take any value. -/

/-- The overloads for the methods without members. -/
def noParams (_ : Json) : Decoder Unit := pure ()

theorem gives_noParams (json : Json) : (noParams json).run.Gives := Except.gives_run_pure ()

structure ParamsTextDocumentPosition where
  textDocument : TextDocumentIdentifier
  position : Position

def ParamsTextDocumentPosition.set (json : Json) : Decoder ParamsTextDocumentPosition :=
  json.whenMembers [str "textDocument", str "position"] do
    let textDocument ← json.setFrom (str "textDocument") TextDocumentIdentifier.set
    let position ← json.setFrom (str "position") Position.set
    return { textDocument := textDocument, position := position }

def TextDocumentPositionShape (json : Json) : Prop :=
  Required (str "textDocument") DocumentShape json ∧
    Required (str "position") PositionShape json

def TextDocumentPositionReadable : Json → Prop :=
  Readable [str "textDocument", str "position"] fun json =>
    Required (str "textDocument") DocumentReadable json ∧
      (Required (str "textDocument") DocumentShape json →
        Required (str "position") PositionReadable json)

theorem returns_textDocumentPosition {json : Json} :
    (ParamsTextDocumentPosition.set json).run.Returns ↔ TextDocumentPositionReadable json := by
  have hposition : (json.setFrom (str "position") Position.set).run.Returns ↔
      Required (str "position") PositionReadable json := returns_setFrom fun _ => returns_position
  apply returns_whenMembers
  rw [Except.returns_run_bind_const fun _ => Except.returns_run_last.trans hposition,
    returns_setFrom fun _ => returns_identifier, gives_setFrom fun _ => gives_identifier]

theorem gives_textDocumentPosition {json : Json} :
    (ParamsTextDocumentPosition.set json).run.Gives ↔ TextDocumentPositionShape json := by
  have hposition : (json.setFrom (str "position") Position.set).run.Gives ↔
      Required (str "position") PositionShape json := gives_setFrom fun _ => gives_position
  apply gives_whenMembers
  · rw [Except.gives_run_bind_const fun _ => Except.gives_run_last.trans hposition,
      gives_setFrom fun _ => gives_identifier]
    rfl
  · intro h
    simp [Members, h.1.members, h.2.members]

structure ParamsTextDocumentDidChange where
  textDocument : VersionedTextDocumentIdentifier
  contentChanges : List TextDocumentContentChangeEvent

def ParamsTextDocumentDidChange.set (json : Json) : Decoder ParamsTextDocumentDidChange := do
  let it ← json.memberOf (str "textDocument")
  let textDocument ← VersionedTextDocumentIdentifier.set it
  let it ← json.memberOf (str "contentChanges")
  let events ← .read it.getArray
  let contentChanges ← events.mapM TextDocumentContentChangeEvent.set
  return { textDocument := textDocument, contentChanges := contentChanges }

/-- The changes are looked at once the document is set. -/
def DidChangeReadable (json : Json) : Prop :=
  (json.IsObject ∧ WhenPresent (str "textDocument") VersionedReadable json) ∧
    (Required (str "textDocument") VersionedShape json →
      json.IsObject ∧
        WhenPresent (str "contentChanges") (fun v => ∃ es, v = .array es ∧ EventsReadable es) json)

theorem returns_contentChanges {v : Json} :
    (Decoder.read v.getArray >>= fun events =>
      events.mapM TextDocumentContentChangeEvent.set).run.Returns ↔
      ∃ es, v = .array es ∧ EventsReadable es := by
  cases v with
  | array es =>
    refine (returns_events es).trans ?_
    constructor
    · intro h
      exact ⟨es, rfl, h⟩
    · intro h
      obtain ⟨_, he, h⟩ := h
      cases he
      exact h
  | _ =>
    refine iff_of_false (fun h => ?_) fun h => ?_
    · exact Except.not_returns_error _ (returns_read.mp (Except.returns_run_bind.mp h).1)
    · obtain ⟨_, he, _⟩ := h
      cases he

theorem returns_didChange {json : Json} :
    (ParamsTextDocumentDidChange.set json).run.Returns ↔ DidChangeReadable json := by
  have hbind : ParamsTextDocumentDidChange.set json =
      (json.memberOf (str "textDocument") >>= VersionedTextDocumentIdentifier.set) >>=
        fun textDocument => (json.memberOf (str "contentChanges") >>= fun it =>
          Decoder.read it.getArray >>= fun events =>
            events.mapM TextDocumentContentChangeEvent.set) >>= fun contentChanges =>
              pure { textDocument := textDocument, contentChanges := contentChanges } := by
    simp only [ParamsTextDocumentDidChange.set, bind_assoc]
  have hchanges : (json.memberOf (str "contentChanges") >>= fun it =>
      Decoder.read it.getArray >>= fun events =>
        events.mapM TextDocumentContentChangeEvent.set).run.Returns ↔
      json.IsObject ∧ WhenPresent (str "contentChanges")
        (fun v => ∃ es, v = .array es ∧ EventsReadable es) json :=
    returns_memberOf_bind fun _ => returns_contentChanges
  rw [hbind, Except.returns_run_bind_const fun _ => Except.returns_run_last.trans hchanges,
    returns_memberOf_bind fun _ => returns_versioned, gives_memberOf_bind fun _ => gives_versioned]
  rfl

structure ParamsTextDocumentDidOpen where
  textDocument : TextDocumentItem

def ParamsTextDocumentDidOpen.set (json : Json) : Decoder ParamsTextDocumentDidOpen := do
  let textDocument ← json.whenMembers [str "textDocument"]
    (json.setFrom (str "textDocument") TextDocumentItem.set)
  return { textDocument := textDocument }

def DidOpenReadable : Json → Prop :=
  Readable [str "textDocument"] (Required (str "textDocument") ItemReadable)

theorem returns_didOpen {json : Json} :
    (ParamsTextDocumentDidOpen.set json).run.Returns ↔ DidOpenReadable json :=
  Except.returns_run_last.trans
    (returns_whenMembers (returns_setFrom fun _ => returns_item))

structure ParamsTextDocumentDocumentSymbol where
  textDocument : TextDocumentIdentifier

def ParamsTextDocumentDocumentSymbol.set (json : Json) :
    Decoder ParamsTextDocumentDocumentSymbol := do
  let textDocument ← json.whenMembers [str "textDocument"]
    (json.setFrom (str "textDocument") TextDocumentIdentifier.set)
  return { textDocument := textDocument }

def DocumentSymbolShape : Json → Prop := Required (str "textDocument") DocumentShape

def DocumentSymbolReadable : Json → Prop :=
  Readable [str "textDocument"] (Required (str "textDocument") DocumentReadable)

theorem returns_documentSymbol {json : Json} :
    (ParamsTextDocumentDocumentSymbol.set json).run.Returns ↔ DocumentSymbolReadable json :=
  Except.returns_run_last.trans
    (returns_whenMembers (returns_setFrom fun _ => returns_identifier))

theorem gives_documentSymbol {json : Json} :
    (ParamsTextDocumentDocumentSymbol.set json).run.Gives ↔ DocumentSymbolShape json := by
  refine Except.gives_run_last.trans (gives_whenMembers (gives_setFrom fun _ => gives_identifier)
    fun h => ?_)
  rw [Members, List.forall_mem_singleton]
  exact h.members

structure ParamsTextDocumentDidSave where
  textDocument : TextDocumentIdentifier
  text : Option Bytes

/-- The text is read whether the document was set or not. -/
def ParamsTextDocumentDidSave.set (json : Json) : Decoder ParamsTextDocumentDidSave :=
  .mk do
    let result ← (json.whenMembers [str "textDocument"]
      (json.setFrom (str "textDocument") TextDocumentIdentifier.set)).run
    let text ← json.find? (str "text") getString
    return result.map fun textDocument => { textDocument := textDocument, text := text }

def DidSaveReadable (json : Json) : Prop :=
  DocumentSymbolReadable json ∧ json.IsObject ∧ WhenPresent (str "text") IsString json

theorem returns_didSave {json : Json} :
    (ParamsTextDocumentDidSave.set json).run.Returns ↔ DidSaveReadable json := by
  have htext : ∀ result : Option TextDocumentIdentifier,
      (json.find? (str "text") getString >>= fun text => pure (result.map fun textDocument =>
        ({ textDocument := textDocument, text := text } : ParamsTextDocumentDidSave))).Returns ↔
        json.IsObject ∧ WhenPresent (str "text") IsString json := fun result =>
    Except.returns_map.trans (returns_find? fun _ => returns_getString)
  refine (Except.returns_bind_const htext).trans (and_congr_left' ?_)
  exact returns_whenMembers (returns_setFrom fun _ => returns_identifier)

/-! ## Parameters of `initialize` -/

/-- Its constructor reads nothing. -/
structure WorkspaceFolder where
  uri : Bytes
  name : Bytes

def WorkspaceFolder.ofJson (_ : Json) : Except Json.Fault WorkspaceFolder :=
  .ok { uri := [], name := [] }

/-- `processId` keeps the value of an uninitialised variable when it is not
given. -/
structure ParamsInitialize where
  processId : Option Int
  rootUri : URI
  capabilities : ClientCapabilities
  trace : Option TraceLevel
  initializationOptions : Option (List Bytes)
  workspaceFolders : Option (List WorkspaceFolder)

/-- `rootPath` is read when there is no `rootUri`. -/
def rootUriOf (json : Json) : Except Json.Fault URI := do
  match ← json.member? (str "rootUri") getString with
  | some uri => return URI.setFromUri uri
  | none =>
    let path ← json.member? (str "rootPath") getString
    return (path.map URI.setFromPath).getD { path := [] }

/-- A comparison with a value that is no string is false. -/
def traceOf : Json → Except Json.Fault TraceLevel
  | .string s =>
    if s = str "off" then .ok .off
    else if s = str "messages" then .ok .messages
    else if s = str "verbose" then .ok .verbose
    else .ok .off
  | _ => .ok .off

/-- The options can be of any type and are ignored. -/
def ParamsInitialize.set (json : Json) : Decoder ParamsInitialize :=
  .read do
    let processId ← json.member? (str "processId") getInt
    let rootUri ← rootUriOf json
    let initializationOptions ← json.member? (str "initializationOptions") fun _ => .ok []
    let capabilities ← json.find? (str "capabilities") ClientCapabilities.set
    let trace ← json.member? (str "trace") traceOf
    let workspaceFolders ←
      json.member? (str "workspaceFolders") (getList WorkspaceFolder.ofJson)
    return { processId := processId, rootUri := rootUri,
             capabilities := capabilities.getD { workspace := none, textDocument := none },
             trace := trace, initializationOptions := initializationOptions,
             workspaceFolders := workspaceFolders }

def RootShape (json : Json) : Prop :=
  json.Member? (str "rootUri") IsString ∧
    (Missing (str "rootUri") json → json.Member? (str "rootPath") IsString)

def InitializeShape (json : Json) : Prop :=
  json.IsObject ∧ json.Member? (str "processId") IsInt ∧ RootShape json ∧
    WhenPresent (str "capabilities") ClientCapabilitiesShape json ∧
    json.Member? (str "workspaceFolders") (IsArrayOf fun _ => True)

theorem returns_rootUriOf {json : Json} :
    (rootUriOf json).Returns ↔ json.IsObject ∧ RootShape json := by
  have hstring : ∀ {name : Bytes}, (json.member? name getString).Returns ↔
      json.IsObject ∧ json.Member? name IsString := by
    intro name
    rw [returns_member?, member?_congr fun _ => returns_getString]
  rw [rootUriOf, Except.returns_bind_of_some fun uri => ⟨URI.setFromUri uri, rfl⟩, hstring,
    member?_eq_none, RootShape]
  have hpath : ((json.member? (str "rootPath") getString >>= fun path =>
      pure ((path.map URI.setFromPath).getD { path := [] })) : Except Json.Fault URI).Returns ↔
      json.IsObject ∧ json.Member? (str "rootPath") IsString := Except.returns_map.trans hstring
  constructor
  · intro h
    exact ⟨h.1.1, h.1.2, fun hmissing => (hpath.mp (h.2 ⟨h.1.1, hmissing⟩)).2⟩
  · intro h
    exact ⟨⟨h.1, h.2.1⟩, fun hmissing => hpath.mpr ⟨h.1, h.2.2 hmissing.2⟩⟩

theorem returns_traceOf (json : Json) : (traceOf json).Returns := by
  cases json with
  | string s =>
    simp only [traceOf]
    split_ifs <;> exact Except.returns_ok _
  | _ => exact Except.returns_ok _

theorem returns_initializeParams {json : Json} :
    (ParamsInitialize.set json).run.Returns ↔ InitializeShape json := by
  refine returns_read.trans ?_
  have hmember : ∀ {α : Type} {name : Bytes} {decode : Json → Except Json.Fault α}
      {P : Json → Prop}, (∀ v, (decode v).Returns ↔ P v) →
      ((json.member? name decode).Returns ↔ json.IsObject ∧ json.Member? name P) := by
    intro α name decode P h
    rw [returns_member?, member?_congr h]
  have hfolders : (json.member? (str "workspaceFolders") (getList WorkspaceFolder.ofJson)).Returns ↔
      json.IsObject ∧ json.Member? (str "workspaceFolders") (IsArrayOf fun _ => True) :=
    hmember fun _ => returns_getList fun _ => iff_of_true (Except.returns_ok _) trivial
  have htrace : (json.member? (str "trace") traceOf).Returns ↔
      json.IsObject ∧ json.Member? (str "trace") fun _ => True :=
    hmember fun v => iff_of_true (returns_traceOf v) trivial
  have hcapabilities : (json.find? (str "capabilities") ClientCapabilities.set).Returns ↔
      json.IsObject ∧ WhenPresent (str "capabilities") ClientCapabilitiesShape json :=
    returns_find? fun _ => returns_clientCapabilities
  have hoptions : (json.member? (str "initializationOptions") fun _ =>
      (.ok [] : Except Json.Fault (List Bytes))).Returns ↔
      json.IsObject ∧ json.Member? (str "initializationOptions") fun _ => True :=
    hmember fun _ => iff_of_true (Except.returns_ok _) trivial
  have hprocess : (json.member? (str "processId") getInt).Returns ↔
      json.IsObject ∧ json.Member? (str "processId") IsInt := hmember fun _ => returns_getInt
  refine (Except.returns_bind_and hprocess fun processId =>
    Except.returns_bind_and returns_rootUriOf fun rootUri =>
      Except.returns_bind_and hoptions fun initializationOptions =>
        Except.returns_bind_and hcapabilities fun capabilities =>
          Except.returns_bind_and htrace fun trace =>
            Except.returns_map.trans hfolders).trans ?_
  have hany : ∀ name : Bytes, json.Member? name fun _ => True := fun _ _ _ => .inr trivial
  constructor
  · intro h
    exact ⟨h.1.1, h.1.2, h.2.1.2, h.2.2.2.1.2, h.2.2.2.2.2.2⟩
  · intro h
    obtain ⟨hobj, hprocess, hroot, hcapabilities, hfolders⟩ := h
    exact ⟨⟨hobj, hprocess⟩, ⟨hobj, hroot⟩, ⟨hobj, hany _⟩, ⟨hobj, hcapabilities⟩, ⟨hobj, hany _⟩,
      ⟨hobj, hfolders⟩⟩

theorem gives_initializeParams {json : Json} :
    (ParamsInitialize.set json).run.Gives ↔ InitializeShape json := by
  rw [← returns_initializeParams]
  exact gives_read.trans returns_read.symm

end P4LS
