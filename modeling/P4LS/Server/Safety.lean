import P4LS.Server.Dispatcher

/-!
# Messages the dispatcher survives

A call returns exactly when every accessor on its path finds the type it asserts
and nothing throws.  The condition is read off the decoders: each of them has
the shape of the values it comes back from.
-/

namespace P4LS

open Bytes Json

/-! ## What a message may be -/

/-- An id that can be read: a number that fits, or a string that converts to
one. -/
def IdReadable : Option Json → Prop
  | none => True
  | some (.string s) => ∃ n, strtol 10 (cstr s) = some n ∧ -2 ^ 31 ≤ n ∧ n < 2 ^ 31
  | some value => value.IsInt

/-- The object a handler is called with, if the parameters are one. -/
def paramsOf : Option Json → Json
  | none => .object []
  | some .null => .object []
  | some params => params

/-- The command of the file can be looked up and its text preprocessed. -/
def OpenReadable (env : Environment) (params : ParamsTextDocumentDidOpen) (server : Server) :
    Prop :=
  CommandReadable env params.textDocument.uri.path server.commands ∧
    (env.wave params.textDocument.uri.path params.textDocument.text).Returns

/-- The text of the open file can be preprocessed, if it has to be. -/
def SymbolsReadable (env : Environment) (params : ParamsTextDocumentDocumentSymbol)
    (server : Server) : Prop :=
  ∀ file, server.files.lookup params.textDocument.uri.path = some file → file.changed = true →
    (env.wave file.unitPath file.sourceCode).Returns

/-- The parameters a method can be called with. -/
def Method.Tolerates (env : Environment) (server : Server) (json : Json) : Method → Prop
  | initialize_ => InitializeShape json
  | definition | documentHighlight | hover | implementation | signatureHelp | typeDefinition =>
    TextDocumentPositionReadable json
  | didChange => DidChangeReadable json
  | didOpen =>
    DidOpenReadable json ∧ ∀ params, (ParamsTextDocumentDidOpen.set json).run = .ok (some params) →
      OpenReadable env params server
  | didSave => DidSaveReadable json
  | documentSymbol =>
    DocumentSymbolReadable json ∧
      ∀ params, (ParamsTextDocumentDocumentSymbol.set json).run = .ok (some params) →
        SymbolsReadable env params server
  | _ => True

/-- A registered method has to be called with an object it tolerates. -/
def MethodTolerated (env : Environment) (server : Server) (msg : Json) (method : Bytes) : Prop :=
  ∀ m : Method, method = str m.name →
    (paramsOf (msg.get? (str "params"))).IsObject ∧
      m.Tolerates env server (paramsOf (msg.get? (str "params")))

/-- An object that is of another version, or has a readable id and a method that
is tolerated if it is a string. -/
def MessageTolerated (env : Environment) (server : Server) (msg : Json) : Prop :=
  msg.IsObject ∧ (isVersion (msg.get? (str "jsonrpc")) = true →
    IdReadable (msg.get? (str "id")) ∧
      ∀ s, msg.get? (str "method") = some (.string s) → MethodTolerated env server msg (cstr s))

/-- What does not parse is tolerated. -/
def ContentTolerated (env : Environment) (server : Server) (content : Bytes) : Prop :=
  ∀ msg, env.rapidjson.parse (cstr content) = some msg → MessageTolerated env server msg

variable {env : Environment}

/-! ## The parts of a call -/

theorem returns_readOptionalId {it : Option Json} :
    (readOptionalId it).Returns ↔ IdReadable it := by
  cases it with
  | none => exact iff_of_true (Except.returns_pure _) trivial
  | some value =>
    refine Except.returns_map.trans ?_
    cases value with
    | string s =>
      refine Except.returns_mapError.trans ?_
      rw [stoi, IdReadable]
      cases hn : strtol 10 (cstr s) with
      | none =>
        refine iff_of_false (Except.not_returns_error _) fun h => ?_
        obtain ⟨n, hn, _⟩ := h
        cases hn
      | some n =>
        by_cases h : -2 ^ 31 ≤ n ∧ n < 2 ^ 31
        · simp only [if_pos h]
          exact iff_of_true (Except.returns_ok _) ⟨n, rfl, h⟩
        · simp only [if_neg h]
          refine iff_of_false (Except.not_returns_error _) fun hm => ?_
          obtain ⟨m, hm, hrange⟩ := hm
          cases hm
          exact h hrange
    | _ => exact returns_checked.trans returns_getInt

theorem readParams_eq_ok {it : Option Json} {params : Json} :
    readParams it = .ok params ↔ (paramsOf it).IsObject ∧ params = paramsOf it := by
  have hempty : (pure (.object []) : Except Fault Json) = .ok params ↔
      (Json.object []).IsObject ∧ params = .object [] := by
    constructor
    · intro h
      exact ⟨⟨[], rfl⟩, (Except.ok.inj h).symm⟩
    · intro h
      rw [h.2]
      rfl
  cases it with
  | none => exact hempty
  | some value =>
    cases value with
    | null => exact hempty
    | object ms =>
      constructor
      · intro h
        exact ⟨⟨ms, rfl⟩, (Except.ok.inj h).symm⟩
      · intro h
        rw [h.2]
        rfl
    | _ =>
      refine iff_of_false (fun h => by cases h) fun h => ?_
      obtain ⟨⟨_, hobj⟩, _⟩ := h
      cases hobj

theorem returns_registered {α : Type} {setParams : Json → Decoder α}
    {handler : α → World → Except Fault World} {json : Json} {world : World} :
    (registered setParams handler json world).Returns ↔
      (setParams json).run.Returns ∧
        ∀ params, (setParams json).run = .ok (some params) → (handler params world).Returns := by
  constructor
  · intro h
    obtain ⟨world', hworld⟩ := h
    rcases registered_eq_ok.mp hworld with ⟨params, hset, hhandler⟩ | ⟨hset, _⟩
    · refine ⟨⟨_, hset⟩, fun params' hset' => ?_⟩
      rw [hset] at hset'
      cases hset'
      exact ⟨world', hhandler⟩
    · refine ⟨⟨_, hset⟩, fun params' hset' => ?_⟩
      rw [hset] at hset'
      cases hset'
  · intro h
    obtain ⟨⟨it, hit⟩, hhandler⟩ := h
    cases it with
    | none => exact ⟨world, registered_eq_ok.mpr (.inr ⟨hit, rfl⟩)⟩
    | some params =>
      obtain ⟨world', hworld⟩ := hhandler params hit
      exact ⟨world', registered_eq_ok.mpr (.inl ⟨params, hit, hworld⟩)⟩

/-- When the handler always returns, the parameters decide. -/
theorem returns_registered_of_handler {α : Type} {setParams : Json → Decoder α}
    {handler : α → World → Except Fault World} {json : Json} {world : World}
    (h : ∀ params, (handler params world).Returns) :
    (registered setParams handler json world).Returns ↔ (setParams json).run.Returns :=
  returns_registered.trans (and_iff_left fun params _ => h params)

/-! ## Handlers that return -/

section Returning

variable {world : World} {stream : OutputStream}

theorem returns_replyNull (hstream : world.context.requestOutputStream = some stream) :
    (replyNull env world).Returns := returns_send hstream

theorem returns_onHighlight (hstream : world.context.requestOutputStream = some stream)
    (params : ParamsTextDocumentPosition) :
    (onTextDocumentDocumentHighlight env params world).Returns := by
  unfold onTextDocumentDocumentHighlight
  dsimp only
  split
  · split
    · exact returns_send hstream
    · exact returns_send hstream
  · exact returns_send hstream

theorem returns_onHover (hstream : world.context.requestOutputStream = some stream)
    (params : ParamsTextDocumentPosition) : (onTextDocumentHover env params world).Returns := by
  unfold onTextDocumentHover
  dsimp only
  split
  · split
    · exact returns_send hstream
    · exact returns_send hstream
  · exact returns_send hstream

theorem returns_onDidOpen (params : ParamsTextDocumentDidOpen) :
    (onTextDocumentDidOpen env params world).Returns ↔ OpenReadable env params world.server := by
  refine (Except.returns_bind_const (P := (env.wave params.textDocument.uri.path
    params.textDocument.text).Returns) fun found => ?_).trans
      (and_congr_left' returns_findCommandForPath)
  refine Except.returns_map.trans ?_
  constructor
  · intro h
    obtain ⟨file, hfile⟩ := h
    exact (P4File.compile_eq_ok.mp hfile).1
  · intro h
    exact ⟨_, P4File.compile_eq_ok.mpr ⟨h, rfl⟩⟩

theorem returns_getSymbols {file : P4File} :
    (file.getSymbols env.wave).Returns ↔
      (file.changed = true → (env.wave file.unitPath file.sourceCode).Returns) := by
  unfold P4File.getSymbols
  dsimp only
  by_cases hchanged : file.changed = true
  · rw [if_pos hchanged, imp_iff_right hchanged]
    refine Except.returns_map.trans ?_
    constructor
    · intro h
      obtain ⟨file', hfile⟩ := h
      exact (P4File.compile_eq_ok.mp hfile).1
    · intro h
      exact ⟨_, P4File.compile_eq_ok.mpr ⟨h, rfl⟩⟩
  · rw [if_neg hchanged]
    exact iff_of_true (Except.returns_pure _) fun h => absurd h hchanged

theorem returns_onDocumentSymbol (hstream : world.context.requestOutputStream = some stream)
    (params : ParamsTextDocumentDocumentSymbol) :
    (onTextDocumentDocumentSymbol env params world).Returns ↔
      SymbolsReadable env params world.server := by
  unfold onTextDocumentDocumentSymbol SymbolsReadable
  dsimp only
  cases world.server.files.lookup params.textDocument.uri.path with
  | none => exact iff_of_true (returns_send hstream) fun file h => by cases h
  | some file =>
    refine (Except.returns_bind_const (P := True) fun found => ?_).trans ?_
    · exact iff_of_true (returns_send hstream) trivial
    · rw [and_true, returns_getSymbols]
      constructor
      · intro h file' hfile'
        cases hfile'
        exact h
      · intro h
        exact h file rfl

/-- A handler returns exactly on the parameters its method tolerates. -/
theorem Method.returns_handler (hstream : world.context.requestOutputStream = some stream)
    {method : Method} {json : Json} :
    (method.handler env json world).Returns ↔ method.Tolerates env world.server json := by
  have hnoParams : ∀ handler : Unit → World → Except Fault World,
      (∀ u, (handler u world).Returns) →
        ((registered noParams handler json world).Returns ↔ True) :=
    fun handler h => (returns_registered_of_handler h).trans
      (iff_of_true (Except.returns_run_pure ()) trivial)
  have hposition : ∀ handler : ParamsTextDocumentPosition → World → Except Fault World,
      (∀ params, (handler params world).Returns) →
        ((registered ParamsTextDocumentPosition.set handler json world).Returns ↔
          TextDocumentPositionReadable json) :=
    fun handler h => (returns_registered_of_handler h).trans returns_textDocumentPosition
  cases method with
  | initialize_ =>
    refine (returns_registered_of_handler ?_).trans returns_initializeParams
    exact fun _ => returns_send hstream
  | definition | implementation | signatureHelp | typeDefinition =>
    exact hposition _ fun _ => returns_replyNull hstream
  | documentHighlight => exact hposition _ (returns_onHighlight hstream)
  | hover => exact hposition _ (returns_onHover hstream)
  | didChange =>
    refine (returns_registered_of_handler ?_).trans returns_didChange
    exact fun _ => Except.returns_ok _
  | didSave =>
    refine (returns_registered_of_handler ?_).trans returns_didSave
    exact fun _ => Except.returns_ok _
  | didOpen =>
    refine returns_registered.trans (and_congr returns_didOpen ?_)
    exact forall_congr' fun params => imp_congr_right fun _ => returns_onDidOpen params
  | documentSymbol =>
    refine returns_registered.trans (and_congr returns_documentSymbol ?_)
    exact forall_congr' fun params => imp_congr_right fun _ =>
      returns_onDocumentSymbol hstream params
  | exit | codeAction | didClose | switchSourceHeader | didChangeConfiguration
  | didChangeWatchedFiles | executeCommand =>
    exact hnoParams _ fun _ => Except.returns_ok _
  | shutdown | codeLens | codeLensResolve | completion | formatting | onTypeFormatting
  | rangeFormatting | rename =>
    exact hnoParams _ fun _ => returns_replyNull hstream

end Returning

/-! ## The call -/

theorem returns_invoke {msg : Json} {method : Bytes} {world : World} {stream : OutputStream}
    (hstream : world.context.requestOutputStream = some stream) (hobj : msg.IsObject) :
    (invoke env msg method world).Returns ↔ MethodTolerated env world.server msg method := by
  rcases registered_or_unregistered method with ⟨m, rfl⟩ | hnone
  · have hcall : invoke env msg (str m.name) world =
        readParams (msg.get? (str "params")) >>= fun params => m.handler env params world := by
      rw [invoke_registered, hobj.findMember]
      rfl
    rw [hcall, Except.returns_bind]
    constructor
    · intro h m' hm'
      obtain ⟨params, hparams, hhandler⟩ := h
      obtain ⟨hobject, rfl⟩ := readParams_eq_ok.mp hparams
      rw [← Method.name_injective (str_inj.mp hm')]
      exact ⟨hobject, (Method.returns_handler hstream).mp hhandler⟩
    · intro h
      obtain ⟨hobject, htolerates⟩ := h m rfl
      exact ⟨_, readParams_eq_ok.mpr ⟨hobject, rfl⟩,
        (Method.returns_handler hstream).mpr htolerates⟩
  · rw [invoke_unregistered hnone]
    exact iff_of_true (returns_send hstream) fun m hm => absurd hm.symm (hnone m)

theorem returns_handleMessage {msg : Json} {stream : OutputStream} {world : World} :
    (handleMessage env msg stream world).Returns ↔ MessageTolerated env world.server msg := by
  by_cases hobj : msg.IsObject
  · rw [handleMessage_eq hobj, MessageTolerated, and_iff_right hobj]
    by_cases hversion : isVersion (msg.get? (str "jsonrpc")) = true
    · rw [if_pos hversion, imp_iff_right hversion, ← returns_readOptionalId]
      refine Except.returns_bind_const fun id => ?_
      split
      · rename_i s hs
        rw [returns_withOptionalId,
          returns_invoke (handlerContext_stream stream id world.context) hobj, hs]
        constructor
        · intro h s' hs'
          cases hs'
          exact h
        · intro h
          exact h s rfl
      · rename_i hs
        exact iff_of_true (Except.returns_pure _) fun s hs' => absurd hs' (hs s)
    · rw [if_neg hversion]
      exact iff_of_true (Except.returns_pure _) fun h => absurd h hversion
  · refine iff_of_false (fun h => ?_) fun h => hobj h.1
    obtain ⟨_, h⟩ := h
    obtain ⟨it, hit, _⟩ := Except.bind_eq_ok.mp h
    exact hobj (findMember_eq_ok.mp (checked_eq_ok.mp hit)).1

/-- A call returns exactly on the contents that are tolerated in the server's
state. -/
theorem returns_call_iff {content : Bytes} {stream : OutputStream} {world : World} :
    (call env content stream world).Returns ↔ ContentTolerated env world.server content := by
  unfold call ContentTolerated
  cases env.rapidjson.parse (cstr content) with
  | none => exact iff_of_true (Except.returns_pure _) fun msg h => by cases h
  | some msg =>
    refine returns_handleMessage.trans ?_
    constructor
    · intro h msg' hmsg'
      cases hmsg'
      exact h
    · intro h
      exact h msg rfl

/-- The content `[]` is JSON but no object. -/
theorem not_returns_call_array :
    ¬ (call (.ofMessage (str "[]") (.array []) []) (str "[]") 0 World.init).Returns := by
  intro h
  have hmsg : (handleMessage (.ofMessage (str "[]") (.array []) []) (.array []) 0
      World.init).Returns := h
  obtain ⟨ms, hms⟩ := (returns_handleMessage.mp hmsg).1
  cases hms

end P4LS
