import P4LS.Library.JsonMembers
import P4LS.Protocol.Capabilities

/-!
# Encoding the client's capabilities

The JSON that a client may send for a value of its capabilities: at every level
an object of the options that are set, with the others left out or `null`, in
any order.  Reading it gives back the value.
-/

namespace P4LS

open Bytes Json

/-! ## Flags and kinds -/

def FlagCapability.Encodes (name : Bytes) (c : FlagCapability) : Json → Prop :=
  ObjectOf [(name, c.flag.map EncodesBool)]

theorem reads_flagCapability (name : Bytes) :
    Reads (FlagCapability.Encodes name) (flagCapability name) := by
  intro c json h
  obtain ⟨hflag, -⟩ := h.holds (by simp)
  exact ⟨h.isObject.ne_null, hflag.read h.isObject reads_bool rfl⟩

theorem exists_bool (b : Bool) : ∃ json, EncodesBool b json := ⟨_, rfl⟩

theorem exists_list {α : Type} (encode : α → Json) (as : List α) :
    ∃ json, EncodesList encode as json := ⟨_, rfl⟩

theorem FlagCapability.exists_encodes (name : Bytes) (c : FlagCapability) :
    ∃ json, c.Encodes name json :=
  exists_objectOf (.cons exists_bool writable_nil)

/-- The kinds of a `valueSet` are written as their numbers. -/
def ValueSet.Encodes {α : Type} (number : α → Int) (s : ValueSet α) : Json → Prop :=
  ObjectOf [(str "valueSet", s.valueSet.map (EncodesList fun a => .int (number a)))]

theorem reads_valueSetOf {α : Type} {number : α → Int} {convert : Int → α}
    (hint : ∀ a, -2 ^ 31 ≤ number a ∧ number a < 2 ^ 31) (hconvert : ∀ a, convert (number a) = a) :
    Reads (ValueSet.Encodes number) (valueSetOf convert) := by
  intro s json h
  have hlist : Reads (EncodesList fun a => .int (number a))
      (getList fun it => convert <$> it.getInt) := by
    refine reads_list fun a => ?_
    rw [getInt_eq_ok.mpr ⟨rfl, hint a⟩]
    exact congrArg Except.ok (hconvert a)
  obtain ⟨hvalues, -⟩ := h.holds (by simp)
  exact ⟨h.isObject.ne_null, hvalues.read h.isObject hlist rfl⟩

theorem ValueSet.exists_encodes {α : Type} (number : α → Int) (s : ValueSet α) :
    ∃ json, s.Encodes number json :=
  exists_objectOf (.cons (exists_list _) writable_nil)

theorem reads_symbolKind : Reads (ValueSet.Encodes SymbolKind.toInt) symbolKind :=
  reads_valueSetOf (fun kind => by cases kind <;> decide) fun kind => by cases kind <;> rfl

theorem reads_completionItemKind :
    Reads (ValueSet.Encodes CompletionItemKind.toInt) completionItemKind :=
  reads_valueSetOf (fun kind => by cases kind <;> decide) fun kind => by cases kind <;> rfl

def encodeMarkupKind (kind : MarkupKind) : Json := .string (convertMarkupKindToString kind)

theorem reads_markupKinds : Reads (EncodesList encodeMarkupKind) markupKinds := by
  refine reads_list fun kind => ?_
  cases kind <;> decide

/-! ## Text documents -/

def Synchronization.Encodes (c : Synchronization) : Json → Prop :=
  ObjectOf [(str "dynamicRegistration", c.dynamicRegistration.map EncodesBool),
    (str "willSave", c.willSave.map EncodesBool),
    (str "willSaveWaitUntil", c.willSaveWaitUntil.map EncodesBool),
    (str "didSave", c.didSave.map EncodesBool)]

theorem reads_synchronization : Reads Synchronization.Encodes synchronization := by
  intro c json h
  obtain ⟨hdynamic, hwillSave, hwaitUntil, hdidSave, -⟩ := h.holds (by simp)
  refine ⟨h.isObject.ne_null, ?_⟩
  exact hdynamic.read h.isObject reads_bool <| hwillSave.read h.isObject reads_bool <|
    hwaitUntil.read h.isObject reads_bool <| hdidSave.read h.isObject reads_bool rfl

theorem Synchronization.exists_encodes (c : Synchronization) : ∃ json, c.Encodes json :=
  exists_objectOf <| .cons exists_bool <| .cons exists_bool <| .cons exists_bool <|
    .cons exists_bool writable_nil

def CompletionItem.Encodes (c : CompletionItem) : Json → Prop :=
  ObjectOf [(str "snippetSupport", c.snippetSupport.map EncodesBool),
    (str "commitCharactersSupport", c.commitCharactersSupport.map EncodesBool),
    (str "documentationFormat", c.documentationFormat.map (EncodesList encodeMarkupKind))]

theorem reads_completionItem : Reads CompletionItem.Encodes completionItem := by
  intro c json h
  obtain ⟨hsnippet, hcommit, hformat, -⟩ := h.holds (by simp)
  refine ⟨h.isObject.ne_null, ?_⟩
  exact hsnippet.read h.isObject reads_bool <| hcommit.read h.isObject reads_bool <|
    hformat.read h.isObject reads_markupKinds rfl

theorem CompletionItem.exists_encodes (c : CompletionItem) : ∃ json, c.Encodes json :=
  exists_objectOf <| .cons exists_bool <| .cons exists_bool <| .cons (exists_list _) writable_nil

def Completion.Encodes (c : Completion) : Json → Prop :=
  ObjectOf [(str "dynamicRegistration", c.dynamicRegistration.map EncodesBool),
    (str "contextSupport", c.contextSupport.map EncodesBool),
    (str "completionItem", c.completionItem.map CompletionItem.Encodes),
    (str "completionItemKind",
      c.completionItemKind.map (ValueSet.Encodes CompletionItemKind.toInt))]

theorem reads_completion : Reads Completion.Encodes completion := by
  intro c json h
  obtain ⟨hdynamic, hcontext, hitem, hkind, -⟩ := h.holds (by simp)
  refine ⟨h.isObject.ne_null, ?_⟩
  exact hdynamic.read h.isObject reads_bool <| hcontext.read h.isObject reads_bool <|
    hitem.read h.isObject reads_completionItem <|
      hkind.read h.isObject reads_completionItemKind rfl

theorem Completion.exists_encodes (c : Completion) : ∃ json, c.Encodes json :=
  exists_objectOf <| .cons exists_bool <| .cons exists_bool <|
    .cons CompletionItem.exists_encodes <| .cons (ValueSet.exists_encodes _) writable_nil

def Hover.Encodes (c : Hover) : Json → Prop :=
  ObjectOf [(str "dynamicRegistration", c.dynamicRegistration.map EncodesBool),
    (str "contentFormat", c.contentFormat.map (EncodesList encodeMarkupKind))]

theorem reads_hover : Reads Hover.Encodes hover := by
  intro c json h
  obtain ⟨hdynamic, hformat, -⟩ := h.holds (by simp)
  refine ⟨h.isObject.ne_null, ?_⟩
  exact hdynamic.read h.isObject reads_bool <| hformat.read h.isObject reads_markupKinds rfl

theorem Hover.exists_encodes (c : Hover) : ∃ json, c.Encodes json :=
  exists_objectOf <| .cons exists_bool <| .cons (exists_list _) writable_nil

def SignatureInformation.Encodes (c : SignatureInformation) : Json → Prop :=
  ObjectOf [(str "documentationFormat", c.documentationFormat.map (EncodesList encodeMarkupKind))]

theorem reads_signatureInformation :
    Reads SignatureInformation.Encodes signatureInformation := by
  intro c json h
  obtain ⟨hformat, -⟩ := h.holds (by simp)
  exact ⟨h.isObject.ne_null, hformat.read h.isObject reads_markupKinds rfl⟩

theorem SignatureInformation.exists_encodes (c : SignatureInformation) : ∃ json, c.Encodes json :=
  exists_objectOf (.cons (exists_list _) writable_nil)

def SignatureHelp.Encodes (c : SignatureHelp) : Json → Prop :=
  ObjectOf [(str "dynamicRegistration", c.dynamicRegistration.map EncodesBool),
    (str "signatureInformation", c.signatureInformation.map SignatureInformation.Encodes)]

theorem reads_signatureHelp : Reads SignatureHelp.Encodes signatureHelp := by
  intro c json h
  obtain ⟨hdynamic, hinformation, -⟩ := h.holds (by simp)
  refine ⟨h.isObject.ne_null, ?_⟩
  exact hdynamic.read h.isObject reads_bool <|
    hinformation.read h.isObject reads_signatureInformation rfl

theorem SignatureHelp.exists_encodes (c : SignatureHelp) : ∃ json, c.Encodes json :=
  exists_objectOf <| .cons exists_bool <| .cons SignatureInformation.exists_encodes writable_nil

def SymbolCapability.Encodes (c : SymbolCapability) : Json → Prop :=
  ObjectOf [(str "dynamicRegistration", c.dynamicRegistration.map EncodesBool),
    (str "symbolKind", c.symbolKind.map (ValueSet.Encodes SymbolKind.toInt))]

theorem reads_symbolCapability : Reads SymbolCapability.Encodes symbolCapability := by
  intro c json h
  obtain ⟨hdynamic, hkind, -⟩ := h.holds (by simp)
  refine ⟨h.isObject.ne_null, ?_⟩
  exact hdynamic.read h.isObject reads_bool <| hkind.read h.isObject reads_symbolKind rfl

theorem SymbolCapability.exists_encodes (c : SymbolCapability) : ∃ json, c.Encodes json :=
  exists_objectOf <| .cons exists_bool <| .cons (ValueSet.exists_encodes _) writable_nil

/-- The flag of most capabilities. -/
def EncodesDynamic : FlagCapability → Json → Prop :=
  FlagCapability.Encodes (str "dynamicRegistration")

def TextDocumentClientCapabilities.Encodes (c : TextDocumentClientCapabilities) : Json → Prop :=
  ObjectOf [(str "synchronization", c.synchronization.map Synchronization.Encodes),
    (str "completion", c.completion.map Completion.Encodes),
    (str "hover", c.hover.map Hover.Encodes),
    (str "signatureHelp", c.signatureHelp.map SignatureHelp.Encodes),
    (str "references", c.references.map EncodesDynamic),
    (str "documentHighlight", c.documentHighlight.map EncodesDynamic),
    (str "documentSymbol", c.documentSymbol.map SymbolCapability.Encodes),
    (str "formatting", c.formatting.map EncodesDynamic),
    (str "rangeFormatting", c.rangeFormatting.map EncodesDynamic),
    (str "onTypeFormatting", c.onTypeFormatting.map EncodesDynamic),
    (str "definition", c.definition.map EncodesDynamic),
    (str "typeDefinition", c.typeDefinition.map EncodesDynamic),
    (str "implementation", c.implementation.map EncodesDynamic),
    (str "codeAction", c.codeAction.map EncodesDynamic),
    (str "codeLens", c.codeLens.map EncodesDynamic),
    (str "documentLink", c.documentLink.map EncodesDynamic),
    (str "colorProvider", c.colorProvider.map EncodesDynamic),
    (str "rename", c.rename.map EncodesDynamic),
    (str "publishDiagnostics",
      c.publishDiagnostics.map (FlagCapability.Encodes (str "relatedInformation")))]

theorem reads_textDocumentClientCapabilities :
    Reads TextDocumentClientCapabilities.Encodes textDocumentClientCapabilities := by
  intro c json h
  have hobj := h.isObject
  have hflag := reads_flagCapability (str "dynamicRegistration")
  obtain ⟨hsynchronization, hcompletion, hhover, hsignatureHelp, hreferences, hhighlight, hsymbol,
    hformatting, hrangeFormatting, honTypeFormatting, hdefinition, htypeDefinition, himplementation,
    hcodeAction, hcodeLens, hdocumentLink, hcolorProvider, hrename, hdiagnostics, -⟩ :=
    h.holds (by simp)
  refine ⟨hobj.ne_null, ?_⟩
  refine hsynchronization.read hobj reads_synchronization ?_
  refine hcompletion.read hobj reads_completion ?_
  refine hhover.read hobj reads_hover ?_
  refine hsignatureHelp.read hobj reads_signatureHelp ?_
  refine hreferences.read hobj hflag ?_
  refine hhighlight.read hobj hflag ?_
  refine hsymbol.read hobj reads_symbolCapability ?_
  refine hformatting.read hobj hflag ?_
  refine hrangeFormatting.read hobj hflag ?_
  refine honTypeFormatting.read hobj hflag ?_
  refine hdefinition.read hobj hflag ?_
  refine htypeDefinition.read hobj hflag ?_
  refine himplementation.read hobj hflag ?_
  refine hcodeAction.read hobj hflag ?_
  refine hcodeLens.read hobj hflag ?_
  refine hdocumentLink.read hobj hflag ?_
  refine hcolorProvider.read hobj hflag ?_
  refine hrename.read hobj hflag ?_
  exact hdiagnostics.read hobj (reads_flagCapability (str "relatedInformation")) rfl

theorem TextDocumentClientCapabilities.exists_encodes (c : TextDocumentClientCapabilities) :
    ∃ json, c.Encodes json := by
  have hflag : ∀ c : FlagCapability, ∃ json, EncodesDynamic c json :=
    FlagCapability.exists_encodes _
  refine exists_objectOf ?_
  refine .cons Synchronization.exists_encodes ?_
  refine .cons Completion.exists_encodes ?_
  refine .cons Hover.exists_encodes ?_
  refine .cons SignatureHelp.exists_encodes ?_
  refine .cons hflag (.cons hflag ?_)
  refine .cons SymbolCapability.exists_encodes ?_
  refine .cons hflag <| .cons hflag <| .cons hflag <| .cons hflag <| .cons hflag <| .cons hflag ?_
  refine .cons hflag <| .cons hflag <| .cons hflag <| .cons hflag <| .cons hflag ?_
  exact .cons (FlagCapability.exists_encodes _) writable_nil

/-! ## The workspace -/

def WorkspaceClientCapabilities.Encodes (c : WorkspaceClientCapabilities) : Json → Prop :=
  ObjectOf [(str "applyEdit", c.applyEdit.map EncodesBool),
    (str "workspaceFolders", c.workspaceFolders.map EncodesBool),
    (str "configuration", c.configuration.map EncodesBool),
    (str "workspaceEdit", c.workspaceEdit.map (FlagCapability.Encodes (str "documentChanges"))),
    (str "didChangeConfiguration", c.didChangeConfiguration.map EncodesDynamic),
    (str "didChangeWatchedFiles", c.didChangeWatchedFiles.map EncodesDynamic),
    (str "executeCommand", c.executeCommand.map EncodesDynamic),
    (str "symbol", c.symbol.map SymbolCapability.Encodes)]

theorem reads_workspaceClientCapabilities :
    Reads WorkspaceClientCapabilities.Encodes workspaceClientCapabilities := by
  intro c json h
  have hobj := h.isObject
  have hflag := reads_flagCapability (str "dynamicRegistration")
  obtain ⟨hedit, hfolders, hconfiguration, hworkspaceEdit, hdidChange, hwatched, hcommand, hsymbol,
    -⟩ := h.holds (by simp)
  refine ⟨hobj.ne_null, ?_⟩
  refine hedit.read hobj reads_bool ?_
  refine hfolders.read hobj reads_bool ?_
  refine hconfiguration.read hobj reads_bool ?_
  refine hworkspaceEdit.read hobj (reads_flagCapability (str "documentChanges")) ?_
  refine hdidChange.read hobj hflag ?_
  refine hwatched.read hobj hflag ?_
  refine hcommand.read hobj hflag ?_
  exact hsymbol.read hobj reads_symbolCapability rfl

theorem WorkspaceClientCapabilities.exists_encodes (c : WorkspaceClientCapabilities) :
    ∃ json, c.Encodes json := by
  have hflag : ∀ c : FlagCapability, ∃ json, EncodesDynamic c json :=
    FlagCapability.exists_encodes _
  refine exists_objectOf <| .cons exists_bool <| .cons exists_bool <| .cons exists_bool ?_
  refine .cons (FlagCapability.exists_encodes _) <| .cons hflag <| .cons hflag <| .cons hflag ?_
  exact .cons SymbolCapability.exists_encodes writable_nil

/-! ## The client -/

def ClientCapabilities.Encodes (c : ClientCapabilities) : Json → Prop :=
  ObjectOf [(str "workspace", c.workspace.map WorkspaceClientCapabilities.Encodes),
    (str "textDocument", c.textDocument.map TextDocumentClientCapabilities.Encodes)]

/-- Every value can be written. -/
theorem ClientCapabilities.exists_encodes (c : ClientCapabilities) : ∃ json, c.Encodes json :=
  exists_objectOf <| .cons WorkspaceClientCapabilities.exists_encodes <|
    .cons TextDocumentClientCapabilities.exists_encodes writable_nil

/-- However a value is written, reading gives it back. -/
theorem set_encodes (c : ClientCapabilities) (json : Json) (h : c.Encodes json) :
    ClientCapabilities.set json = .ok c := by
  obtain ⟨hworkspace, htextDocument, -⟩ := h.holds (by simp)
  exact hworkspace.read h.isObject reads_workspaceClientCapabilities <|
    htextDocument.read h.isObject reads_textDocumentClientCapabilities rfl

/-- Members in another order than they are read in, one of them `null`. -/
theorem set_encodes_symbol :
    ClientCapabilities.set (.object [(str "textDocument", .null), (str "workspace",
        .object [(str "symbol", .object [(str "symbolKind",
          .object [(str "valueSet", .array [.int 1, .int 26])])]),
        (str "applyEdit", .bool true)])]) =
      .ok { workspace := some {
              applyEdit := some true, workspaceFolders := none, configuration := none,
              workspaceEdit := none, didChangeConfiguration := none, didChangeWatchedFiles := none,
              executeCommand := none,
              symbol := some { dynamicRegistration := none,
                               symbolKind := some ⟨some [.file, .typeParameter]⟩ } },
            textDocument := none } := by
  refine set_encodes _ _ ⟨_, _, .present ?_ (.asNull .nil), .swap _ _ _, rfl⟩
  refine ⟨_, _, .present rfl <| .omitted <| .omitted <| .omitted <| .omitted <| .omitted <|
    .omitted <| .present ?_ .nil, .swap _ _ _, rfl⟩
  refine ⟨_, _, .omitted (.present ?_ .nil), .refl _, rfl⟩
  exact ⟨_, _, .present rfl .nil, .refl _, rfl⟩

end P4LS
