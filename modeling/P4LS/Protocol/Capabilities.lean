import P4LS.Protocol.Types

/-!
# Capabilities

The constructors that read the client's capabilities from JSON, and the
server's capabilities with their `get_json`.  Beside each constructor stands the
shape of the values it can read: an object in which the members it asks for are
absent, `null` or of their type.
-/

namespace P4LS

open Bytes Json

/-! ## One flag

Most of the client's capabilities are an object with one flag. -/

structure FlagCapability where
  flag : Option Bool
  deriving DecidableEq

def flagCapability (name : Bytes) (json : Json) : Except Json.Fault FlagCapability := do
  let flag ← json.member? name getBool
  return { flag := flag }

def FlagShape (name : Bytes) : Json → Prop := Record [(name, IsBool)]

theorem returns_flagCapability {name : Bytes} {json : Json} :
    (flagCapability name json).Returns ↔ FlagShape name json :=
  returns_record_last fun _ => returns_getBool

def references := flagCapability (str "dynamicRegistration")
def documentHighlight := flagCapability (str "dynamicRegistration")
def formatting := flagCapability (str "dynamicRegistration")
def rangeFormatting := flagCapability (str "dynamicRegistration")
def onTypeFormatting := flagCapability (str "dynamicRegistration")
def definition := flagCapability (str "dynamicRegistration")
def typeDefinition := flagCapability (str "dynamicRegistration")
def implementation := flagCapability (str "dynamicRegistration")
def codeAction := flagCapability (str "dynamicRegistration")
def codeLens := flagCapability (str "dynamicRegistration")
def documentLink := flagCapability (str "dynamicRegistration")
def colorProvider := flagCapability (str "dynamicRegistration")
def rename := flagCapability (str "dynamicRegistration")
def publishDiagnostics := flagCapability (str "relatedInformation")
def workspaceEdit := flagCapability (str "documentChanges")
def didChangeConfiguration := flagCapability (str "dynamicRegistration")
def didChangeWatchedFiles := flagCapability (str "dynamicRegistration")
def executeCommand := flagCapability (str "dynamicRegistration")

/-! ## Sets of kinds -/

/-- The values of a `valueSet`, converted from their numbers. -/
structure ValueSet (α : Type) where
  valueSet : Option (List α)

def valueSetOf {α : Type} (convert : Int → α) (json : Json) : Except Json.Fault (ValueSet α) := do
  let values ← json.member? (str "valueSet") (getList fun it => convert <$> it.getInt)
  return { valueSet := values }

def ValueSetShape : Json → Prop := Record [(str "valueSet", IsArrayOf IsInt)]

theorem returns_valueSetOf {α : Type} {convert : Int → α} {json : Json} :
    (valueSetOf convert json).Returns ↔ ValueSetShape json :=
  returns_record_last fun _ =>
    returns_getList fun _ => Except.returns_map.trans returns_getInt

def completionItemKind := valueSetOf convertIntToCompletionItemKind
def symbolKind := valueSetOf convertIntToSymbolKind

/-- The formats of a documentation or content format. -/
def markupKinds : Json → Except Json.Fault (List MarkupKind) :=
  getList fun it => convertStringToMarkupKind <$> it.getString

theorem returns_markupKinds {json : Json} :
    (markupKinds json).Returns ↔ json.IsArrayOf IsString :=
  returns_getList fun _ => Except.returns_map.trans returns_getString

/-! ## Text document capabilities of the client -/

structure Synchronization where
  dynamicRegistration : Option Bool
  willSave : Option Bool
  willSaveWaitUntil : Option Bool
  didSave : Option Bool

def synchronization (json : Json) : Except Json.Fault Synchronization := do
  let dynamicRegistration ← json.member? (str "dynamicRegistration") getBool
  let willSave ← json.member? (str "willSave") getBool
  let willSaveWaitUntil ← json.member? (str "willSaveWaitUntil") getBool
  let didSave ← json.member? (str "didSave") getBool
  return { dynamicRegistration := dynamicRegistration, willSave := willSave,
           willSaveWaitUntil := willSaveWaitUntil, didSave := didSave }

def SynchronizationShape : Json → Prop :=
  Record [(str "dynamicRegistration", IsBool), (str "willSave", IsBool),
    (str "willSaveWaitUntil", IsBool), (str "didSave", IsBool)]

theorem returns_synchronization {json : Json} :
    (synchronization json).Returns ↔ SynchronizationShape json :=
  returns_record_cons (fun _ => returns_getBool) fun _ =>
    returns_record_cons (fun _ => returns_getBool) fun _ =>
      returns_record_cons (fun _ => returns_getBool) fun _ =>
        returns_record_last fun _ => returns_getBool

structure CompletionItem where
  snippetSupport : Option Bool
  commitCharactersSupport : Option Bool
  documentationFormat : Option (List MarkupKind)

def completionItem (json : Json) : Except Json.Fault CompletionItem := do
  let snippetSupport ← json.member? (str "snippetSupport") getBool
  let commitCharactersSupport ← json.member? (str "commitCharactersSupport") getBool
  let documentationFormat ← json.member? (str "documentationFormat") markupKinds
  return { snippetSupport := snippetSupport, commitCharactersSupport := commitCharactersSupport,
           documentationFormat := documentationFormat }

def CompletionItemShape : Json → Prop :=
  Record [(str "snippetSupport", IsBool), (str "commitCharactersSupport", IsBool),
    (str "documentationFormat", IsArrayOf IsString)]

theorem returns_completionItem {json : Json} :
    (completionItem json).Returns ↔ CompletionItemShape json :=
  returns_record_cons (fun _ => returns_getBool) fun _ =>
    returns_record_cons (fun _ => returns_getBool) fun _ =>
      returns_record_last fun _ => returns_markupKinds

structure Completion where
  dynamicRegistration : Option Bool
  contextSupport : Option Bool
  completionItem : Option CompletionItem
  completionItemKind : Option (ValueSet CompletionItemKind)

def completion (json : Json) : Except Json.Fault Completion := do
  let dynamicRegistration ← json.member? (str "dynamicRegistration") getBool
  let contextSupport ← json.member? (str "contextSupport") getBool
  let item ← json.member? (str "completionItem") completionItem
  let itemKind ← json.member? (str "completionItemKind") completionItemKind
  return { dynamicRegistration := dynamicRegistration, contextSupport := contextSupport,
           completionItem := item, completionItemKind := itemKind }

def CompletionShape : Json → Prop :=
  Record [(str "dynamicRegistration", IsBool), (str "contextSupport", IsBool),
    (str "completionItem", CompletionItemShape), (str "completionItemKind", ValueSetShape)]

theorem returns_completion {json : Json} :
    (completion json).Returns ↔ CompletionShape json :=
  returns_record_cons (fun _ => returns_getBool) fun _ =>
    returns_record_cons (fun _ => returns_getBool) fun _ =>
      returns_record_cons (fun _ => returns_completionItem) fun _ =>
        returns_record_last fun _ => returns_valueSetOf

structure Hover where
  dynamicRegistration : Option Bool
  contentFormat : Option (List MarkupKind)

def hover (json : Json) : Except Json.Fault Hover := do
  let dynamicRegistration ← json.member? (str "dynamicRegistration") getBool
  let contentFormat ← json.member? (str "contentFormat") markupKinds
  return { dynamicRegistration := dynamicRegistration, contentFormat := contentFormat }

def HoverShape : Json → Prop :=
  Record [(str "dynamicRegistration", IsBool), (str "contentFormat", IsArrayOf IsString)]

theorem returns_hover {json : Json} : (hover json).Returns ↔ HoverShape json :=
  returns_record_cons (fun _ => returns_getBool) fun _ =>
    returns_record_last fun _ => returns_markupKinds

structure SignatureInformation where
  documentationFormat : Option (List MarkupKind)

def signatureInformation (json : Json) : Except Json.Fault SignatureInformation := do
  let documentationFormat ← json.member? (str "documentationFormat") markupKinds
  return { documentationFormat := documentationFormat }

def SignatureInformationShape : Json → Prop :=
  Record [(str "documentationFormat", IsArrayOf IsString)]

theorem returns_signatureInformation {json : Json} :
    (signatureInformation json).Returns ↔ SignatureInformationShape json :=
  returns_record_last fun _ => returns_markupKinds

structure SignatureHelp where
  dynamicRegistration : Option Bool
  signatureInformation : Option SignatureInformation

def signatureHelp (json : Json) : Except Json.Fault SignatureHelp := do
  let dynamicRegistration ← json.member? (str "dynamicRegistration") getBool
  let information ← json.member? (str "signatureInformation") signatureInformation
  return { dynamicRegistration := dynamicRegistration, signatureInformation := information }

def SignatureHelpShape : Json → Prop :=
  Record [(str "dynamicRegistration", IsBool),
    (str "signatureInformation", SignatureInformationShape)]

theorem returns_signatureHelp {json : Json} :
    (signatureHelp json).Returns ↔ SignatureHelpShape json :=
  returns_record_cons (fun _ => returns_getBool) fun _ =>
    returns_record_last fun _ => returns_signatureInformation

/-- `Document_symbol` and the `Symbol` of the workspace read the same members. -/
structure SymbolCapability where
  dynamicRegistration : Option Bool
  symbolKind : Option (ValueSet SymbolKind)

def symbolCapability (json : Json) : Except Json.Fault SymbolCapability := do
  let dynamicRegistration ← json.member? (str "dynamicRegistration") getBool
  let kind ← json.member? (str "symbolKind") symbolKind
  return { dynamicRegistration := dynamicRegistration, symbolKind := kind }

def SymbolShape : Json → Prop :=
  Record [(str "dynamicRegistration", IsBool), (str "symbolKind", ValueSetShape)]

theorem returns_symbolCapability {json : Json} :
    (symbolCapability json).Returns ↔ SymbolShape json :=
  returns_record_cons (fun _ => returns_getBool) fun _ =>
    returns_record_last fun _ => returns_valueSetOf

def documentSymbol := symbolCapability
def symbol := symbolCapability

structure TextDocumentClientCapabilities where
  synchronization : Option Synchronization
  completion : Option Completion
  hover : Option Hover
  signatureHelp : Option SignatureHelp
  references : Option FlagCapability
  documentHighlight : Option FlagCapability
  documentSymbol : Option SymbolCapability
  formatting : Option FlagCapability
  rangeFormatting : Option FlagCapability
  onTypeFormatting : Option FlagCapability
  definition : Option FlagCapability
  typeDefinition : Option FlagCapability
  implementation : Option FlagCapability
  codeAction : Option FlagCapability
  codeLens : Option FlagCapability
  documentLink : Option FlagCapability
  colorProvider : Option FlagCapability
  rename : Option FlagCapability
  publishDiagnostics : Option FlagCapability

/-- The constructor. -/
def textDocumentClientCapabilities (json : Json) :
    Except Json.Fault TextDocumentClientCapabilities := do
  let synchronization' ← json.member? (str "synchronization") synchronization
  let completion' ← json.member? (str "completion") completion
  let hover' ← json.member? (str "hover") hover
  let signatureHelp' ← json.member? (str "signatureHelp") signatureHelp
  let references' ← json.member? (str "references") references
  let documentHighlight' ← json.member? (str "documentHighlight") documentHighlight
  let documentSymbol' ← json.member? (str "documentSymbol") documentSymbol
  let formatting' ← json.member? (str "formatting") formatting
  let rangeFormatting' ← json.member? (str "rangeFormatting") rangeFormatting
  let onTypeFormatting' ← json.member? (str "onTypeFormatting") onTypeFormatting
  let definition' ← json.member? (str "definition") definition
  let typeDefinition' ← json.member? (str "typeDefinition") typeDefinition
  let implementation' ← json.member? (str "implementation") implementation
  let codeAction' ← json.member? (str "codeAction") codeAction
  let codeLens' ← json.member? (str "codeLens") codeLens
  let documentLink' ← json.member? (str "documentLink") documentLink
  let colorProvider' ← json.member? (str "colorProvider") colorProvider
  let rename' ← json.member? (str "rename") rename
  let publishDiagnostics' ← json.member? (str "publishDiagnostics") publishDiagnostics
  return { synchronization := synchronization', completion := completion', hover := hover',
           signatureHelp := signatureHelp', references := references',
           documentHighlight := documentHighlight', documentSymbol := documentSymbol',
           formatting := formatting', rangeFormatting := rangeFormatting',
           onTypeFormatting := onTypeFormatting', definition := definition',
           typeDefinition := typeDefinition', implementation := implementation',
           codeAction := codeAction', codeLens := codeLens', documentLink := documentLink',
           colorProvider := colorProvider', rename := rename',
           publishDiagnostics := publishDiagnostics' }

def DynamicRegistrationShape : Json → Prop := FlagShape (str "dynamicRegistration")

def TextDocumentShape : Json → Prop :=
  Record [(str "synchronization", SynchronizationShape), (str "completion", CompletionShape),
    (str "hover", HoverShape), (str "signatureHelp", SignatureHelpShape),
    (str "references", DynamicRegistrationShape),
    (str "documentHighlight", DynamicRegistrationShape), (str "documentSymbol", SymbolShape),
    (str "formatting", DynamicRegistrationShape),
    (str "rangeFormatting", DynamicRegistrationShape),
    (str "onTypeFormatting", DynamicRegistrationShape),
    (str "definition", DynamicRegistrationShape), (str "typeDefinition", DynamicRegistrationShape),
    (str "implementation", DynamicRegistrationShape), (str "codeAction", DynamicRegistrationShape),
    (str "codeLens", DynamicRegistrationShape), (str "documentLink", DynamicRegistrationShape),
    (str "colorProvider", DynamicRegistrationShape), (str "rename", DynamicRegistrationShape),
    (str "publishDiagnostics", FlagShape (str "relatedInformation"))]

theorem returns_textDocumentClientCapabilities {json : Json} :
    (textDocumentClientCapabilities json).Returns ↔ TextDocumentShape json := by
  have hflag : ∀ {name : Bytes} (v : Json),
      (flagCapability name v).Returns ↔ FlagShape name v := fun _ => returns_flagCapability
  refine returns_record_cons (fun _ => returns_synchronization) fun _ => ?_
  refine returns_record_cons (fun _ => returns_completion) fun _ => ?_
  refine returns_record_cons (fun _ => returns_hover) fun _ => ?_
  refine returns_record_cons (fun _ => returns_signatureHelp) fun _ => ?_
  refine returns_record_cons hflag fun _ => ?_
  refine returns_record_cons hflag fun _ => ?_
  refine returns_record_cons (fun _ => returns_symbolCapability) fun _ => ?_
  refine returns_record_cons hflag fun _ => ?_
  refine returns_record_cons hflag fun _ => ?_
  refine returns_record_cons hflag fun _ => ?_
  refine returns_record_cons hflag fun _ => ?_
  refine returns_record_cons hflag fun _ => ?_
  refine returns_record_cons hflag fun _ => ?_
  refine returns_record_cons hflag fun _ => ?_
  refine returns_record_cons hflag fun _ => ?_
  refine returns_record_cons hflag fun _ => ?_
  refine returns_record_cons hflag fun _ => ?_
  refine returns_record_cons hflag fun _ => ?_
  exact returns_record_last hflag

/-! ## Workspace capabilities of the client -/

structure WorkspaceClientCapabilities where
  applyEdit : Option Bool
  workspaceFolders : Option Bool
  configuration : Option Bool
  workspaceEdit : Option FlagCapability
  didChangeConfiguration : Option FlagCapability
  didChangeWatchedFiles : Option FlagCapability
  executeCommand : Option FlagCapability
  symbol : Option SymbolCapability

/-- The constructor. -/
def workspaceClientCapabilities (json : Json) :
    Except Json.Fault WorkspaceClientCapabilities := do
  let applyEdit' ← json.member? (str "applyEdit") getBool
  let workspaceFolders' ← json.member? (str "workspaceFolders") getBool
  let configuration' ← json.member? (str "configuration") getBool
  let workspaceEdit' ← json.member? (str "workspaceEdit") workspaceEdit
  let didChangeConfiguration' ← json.member? (str "didChangeConfiguration") didChangeConfiguration
  let didChangeWatchedFiles' ← json.member? (str "didChangeWatchedFiles") didChangeWatchedFiles
  let executeCommand' ← json.member? (str "executeCommand") executeCommand
  let symbol' ← json.member? (str "symbol") symbol
  return { applyEdit := applyEdit', workspaceFolders := workspaceFolders',
           configuration := configuration', workspaceEdit := workspaceEdit',
           didChangeConfiguration := didChangeConfiguration',
           didChangeWatchedFiles := didChangeWatchedFiles', executeCommand := executeCommand',
           symbol := symbol' }

def WorkspaceShape : Json → Prop :=
  Record [(str "applyEdit", IsBool), (str "workspaceFolders", IsBool),
    (str "configuration", IsBool), (str "workspaceEdit", FlagShape (str "documentChanges")),
    (str "didChangeConfiguration", DynamicRegistrationShape),
    (str "didChangeWatchedFiles", DynamicRegistrationShape),
    (str "executeCommand", DynamicRegistrationShape), (str "symbol", SymbolShape)]

theorem returns_workspaceClientCapabilities {json : Json} :
    (workspaceClientCapabilities json).Returns ↔ WorkspaceShape json := by
  have hflag : ∀ {name : Bytes} (v : Json),
      (flagCapability name v).Returns ↔ FlagShape name v := fun _ => returns_flagCapability
  refine returns_record_cons (fun _ => returns_getBool) fun _ => ?_
  refine returns_record_cons (fun _ => returns_getBool) fun _ => ?_
  refine returns_record_cons (fun _ => returns_getBool) fun _ => ?_
  refine returns_record_cons hflag fun _ => ?_
  refine returns_record_cons hflag fun _ => ?_
  refine returns_record_cons hflag fun _ => ?_
  refine returns_record_cons hflag fun _ => ?_
  exact returns_record_last (fun _ => returns_symbolCapability)

structure ClientCapabilities where
  workspace : Option WorkspaceClientCapabilities
  textDocument : Option TextDocumentClientCapabilities

def ClientCapabilities.set (json : Json) : Except Json.Fault ClientCapabilities := do
  let workspace ← json.member? (str "workspace") workspaceClientCapabilities
  let textDocument ← json.member? (str "textDocument") textDocumentClientCapabilities
  return { workspace := workspace, textDocument := textDocument }

def ClientCapabilitiesShape : Json → Prop :=
  Record [(str "workspace", WorkspaceShape), (str "textDocument", TextDocumentShape)]

theorem returns_clientCapabilities {json : Json} :
    (ClientCapabilities.set json).Returns ↔ ClientCapabilitiesShape json :=
  returns_record_cons (fun _ => returns_workspaceClientCapabilities) fun _ =>
    returns_record_last fun _ => returns_textDocumentClientCapabilities

/-! ## Server capabilities

An option that is not set adds no member. -/

/-- The member of an option that is set. -/
def option (name : String) (value : Option Json) : List (Bytes × Json) :=
  (value.map fun v => (str name, v)).toList

structure SaveOptions where
  includeText : Option Bool

def SaveOptions.getJson (o : SaveOptions) : Json :=
  .object (option "includeText" (o.includeText.map .bool))

structure TextDocumentSyncOptions where
  openClose : Option Bool
  willSave : Option Bool
  willSaveWaitUntil : Option Bool
  save : Option SaveOptions
  change : Option TextDocumentSyncKind

def TextDocumentSyncOptions.getJson (o : TextDocumentSyncOptions) : Json :=
  .object (option "openClose" (o.openClose.map .bool)
    ++ option "willSave" (o.willSave.map .bool)
    ++ option "willSaveWaitUntil" (o.willSaveWaitUntil.map .bool)
    ++ option "change" (o.change.map fun kind => .int kind.toInt)
    ++ option "save" (o.save.map (·.getJson)))

structure CompletionOptions where
  resolveProvider : Option Bool
  triggerCharacters : Option Bytes

def CompletionOptions.getJson (o : CompletionOptions) : Json :=
  .object (option "resolveProvider" (o.resolveProvider.map .bool)
    ++ option "triggerCharacters" (o.triggerCharacters.map fun s => .string (cstr s)))

structure SignatureHelpOptions where
  triggerCharacters : Option Bytes

def SignatureHelpOptions.getJson (o : SignatureHelpOptions) : Json :=
  .object (option "triggerCharacters" (o.triggerCharacters.map fun s => .string (cstr s)))

structure CodeLensOptions where
  resolveProvider : Option Bool

def CodeLensOptions.getJson (o : CodeLensOptions) : Json :=
  .object (option "resolveProvider" (o.resolveProvider.map .bool))

structure DocumentOnTypeFormattingOptions where
  firstTriggerCharacter : Bytes
  moreTriggerCharacter : Option Bytes

def DocumentOnTypeFormattingOptions.getJson (o : DocumentOnTypeFormattingOptions) : Json :=
  .object ((str "firstTriggerCharacter", .string (cstr o.firstTriggerCharacter))
    :: option "moreTriggerCharacter" (o.moreTriggerCharacter.map fun s => .string (cstr s)))

structure DocumentLinkOptions where
  resolveProvider : Option Bool

def DocumentLinkOptions.getJson (o : DocumentLinkOptions) : Json :=
  .object (option "resolveProvider" (o.resolveProvider.map .bool))

structure ExecuteCommandOptions where
  commands : List Bytes

def ExecuteCommandOptions.getJson (o : ExecuteCommandOptions) : Json :=
  .object [(str "commands", .array (o.commands.map fun it => .string (cstr it)))]

structure WorkspaceFolders where
  supported : Option Bool
  changeNotifications : Option Bytes

def WorkspaceFolders.getJson (o : WorkspaceFolders) : Json :=
  .object (option "supported" (o.supported.map .bool)
    ++ option "changeNotifications" (o.changeNotifications.map fun s => .string (cstr s)))

structure Workspace where
  workspaceFolders : Option WorkspaceFolders

def Workspace.getJson (o : Workspace) : Json :=
  .object (option "workspaceFolders" (o.workspaceFolders.map (·.getJson)))

structure ColorProviderOptions where

def ColorProviderOptions.getJson (_ : ColorProviderOptions) : Json := .object []

structure ServerCapabilities where
  workspace : Option Workspace
  textDocumentSync : Option TextDocumentSyncOptions
  completionProvider : Option CompletionOptions
  signatureHelpProvider : Option SignatureHelpOptions
  codeLensProvider : Option CodeLensOptions
  documentOnTypeFormattingProvider : Option DocumentOnTypeFormattingOptions
  documentLinkProvider : Option DocumentLinkOptions
  colorProvider : Option ColorProviderOptions
  executeCommandProvider : Option ExecuteCommandOptions
  hoverProvider : Option Bool
  definitionProvider : Option Bool
  typeDefinitionProvider : Option Bool
  implementationProvider : Option Bool
  referencesProvider : Option Bool
  documentHighlightProvider : Option Bool
  documentSymbolProvider : Option Bool
  workspaceSymbolProvider : Option Bool
  codeActionProvider : Option Bool
  documentFormattingProvider : Option Bool
  documentRangeFormattingProvider : Option Bool
  renameProvider : Option Bool

def ServerCapabilities.getJson (c : ServerCapabilities) : Json :=
  .object (option "workspace" (c.workspace.map (·.getJson))
    ++ option "textDocumentSync" (c.textDocumentSync.map (·.getJson))
    ++ option "completionProvider" (c.completionProvider.map (·.getJson))
    ++ option "signatureHelpProvider" (c.signatureHelpProvider.map (·.getJson))
    ++ option "codeLensProvider" (c.codeLensProvider.map (·.getJson))
    ++ option "documentOnTypeFormattingProvider"
      (c.documentOnTypeFormattingProvider.map (·.getJson))
    ++ option "documentLinkProvider" (c.documentLinkProvider.map (·.getJson))
    ++ option "colorProvider" (c.colorProvider.map (·.getJson))
    ++ option "executeCommandProvider" (c.executeCommandProvider.map (·.getJson))
    ++ option "hoverProvider" (c.hoverProvider.map .bool)
    ++ option "definitionProvider" (c.definitionProvider.map .bool)
    ++ option "typeDefinitionProvider" (c.typeDefinitionProvider.map .bool)
    ++ option "implementationProvider" (c.implementationProvider.map .bool)
    ++ option "referencesProvider" (c.referencesProvider.map .bool)
    ++ option "documentHighlightProvider" (c.documentHighlightProvider.map .bool)
    ++ option "documentSymbolProvider" (c.documentSymbolProvider.map .bool)
    ++ option "workspaceSymbolProvider" (c.workspaceSymbolProvider.map .bool)
    ++ option "codeActionProvider" (c.codeActionProvider.map .bool)
    ++ option "documentFormattingProvider" (c.documentFormattingProvider.map .bool)
    ++ option "documentRangeFormattingProvider" (c.documentRangeFormattingProvider.map .bool)
    ++ option "renameProvider" (c.renameProvider.map .bool))

end P4LS
