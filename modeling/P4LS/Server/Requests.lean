import P4LS.Server.Ids
import P4LS.Server.Safety

/-!
# Answered requests

A request is answered once or not at all, and the method and the parameters
decide which: some handlers never reply, and a handler whose parameters cannot
be set is not called.
-/

namespace P4LS

open Bytes Json

/-! ## Requests and responses -/

/-- A request with a number for an id and an object for parameters, if it has
any. -/
structure Request (env : Environment) (content : Bytes) (msg : Json) (id : Int) (method : Bytes) :
    Prop where
  parse : env.rapidjson.parse (cstr content) = some msg
  object : msg.IsObject
  version : msg.get? (str "jsonrpc") = some (.string (str "2.0"))
  fits : IsInt (.int id)
  id : msg.get? (str "id") = some (.int id)
  method : ∃ s, msg.get? (str "method") = some (.string s) ∧ method = cstr s
  params : (paramsOf (msg.get? (str "params"))).IsObject

/-- A response with the id and either a result or an error. -/
def IsResponse (env : Environment) (stream : OutputStream) (id : Int) (sent : Sent) : Prop :=
  RespondsTo env stream id sent ∧
    ∃ field value, (field = str "result" ∨ field = str "error") ∧
      sent.value = responseValue id field value

/-- The call returns after writing one response. -/
def AnsweredOnce (env : Environment) (content : Bytes) (stream : OutputStream) (world : World)
    (id : Int) : Prop :=
  ∃ world' sent, call env content stream world = .ok world' ∧
    world'.sent = world.sent ++ [sent] ∧ IsResponse env stream id sent

/-- The methods and parameters a handler replies to. -/
def Method.Replies (env : Environment) (server : Server) (json : Json) : Method → Prop
  | initialize_ => InitializeShape json
  | shutdown | codeLens | codeLensResolve | completion | formatting | onTypeFormatting
  | rangeFormatting | rename => True
  | definition | documentHighlight | hover | implementation | signatureHelp | typeDefinition =>
    TextDocumentPositionShape json
  | documentSymbol =>
    DocumentSymbolShape json ∧
      ∀ params, (ParamsTextDocumentDocumentSymbol.set json).run = .ok (some params) →
        SymbolsReadable env params server
  | exit | codeAction | didChange | didClose | didOpen | didSave | switchSourceHeader
  | didChangeConfiguration | didChangeWatchedFiles | executeCommand => False

/-- The method is unknown, or its handler replies to the parameters. -/
def Answered (env : Environment) (server : Server) (method : Bytes) (json : Json) : Prop :=
  Unregistered method ∨ ∃ m : Method, method = str m.name ∧ m.Replies env server json

variable {env : Environment}

/-! ## Handlers -/

theorem registered_once {α : Type} {setParams : Json → Decoder α}
    {handler : α → World → Except Fault World} {json : Json} {world world' : World}
    (hhandler : ∀ params, RepliesOnce env (handler params)) (hgives : (setParams json).run.Gives)
    (h : registered setParams handler json world = .ok world') :
    ∃ result, Answers env [(str "result", result)] world world' := by
  obtain ⟨params, hparams⟩ := hgives
  rcases registered_eq_ok.mp h with ⟨params', _, h⟩ | ⟨hnone, _⟩
  · exact hhandler params' world world' h
  · rw [hparams] at hnone
    cases hnone

/-- Parameters that cannot be set are logged. -/
theorem registered_refused {α : Type} {setParams : Json → Decoder α}
    {handler : α → World → Except Fault World} {json : Json} {world world' : World}
    (hgives : ¬ (setParams json).run.Gives)
    (h : registered setParams handler json world = .ok world') : Answers env [] world world' := by
  rcases registered_eq_ok.mp h with ⟨params, hparams, _⟩ | ⟨_, rfl⟩
  · exact absurd ⟨params, hparams⟩ hgives
  · exact Answers.silent world'.server

theorem Method.handler_once {method : Method} {json : Json} {world world' : World}
    (hreplies : method.Replies env world.server json)
    (h : method.handler env json world = .ok world') :
    ∃ result, Answers env [(str "result", result)] world world' := by
  cases method with
  | initialize_ =>
    exact registered_once (fun _ => repliesOnce_initialize) (gives_initializeParams.mpr hreplies) h
  | documentHighlight =>
    exact registered_once repliesOnce_highlight (gives_textDocumentPosition.mpr hreplies) h
  | hover => exact registered_once repliesOnce_hover (gives_textDocumentPosition.mpr hreplies) h
  | documentSymbol =>
    exact registered_once repliesOnce_documentSymbol (gives_documentSymbol.mpr hreplies.1) h
  | definition | implementation | signatureHelp | typeDefinition =>
    exact registered_once (fun _ => repliesOnce_null) (gives_textDocumentPosition.mpr hreplies) h
  | shutdown | codeLens | codeLensResolve | completion | formatting | onTypeFormatting
  | rangeFormatting | rename =>
    exact registered_once (fun _ => repliesOnce_null) (gives_noParams json) h
  | exit | codeAction | didChange | didClose | didOpen | didSave | switchSourceHeader
  | didChangeConfiguration | didChangeWatchedFiles | executeCommand => exact hreplies.elim

theorem Method.handler_silent {method : Method} {json : Json} {world world' : World}
    {stream : OutputStream} (hstream : world.context.requestOutputStream = some stream)
    (hreplies : ¬ method.Replies env world.server json)
    (h : method.handler env json world = .ok world') : Answers env [] world world' := by
  cases method with
  | initialize_ =>
    exact registered_refused (fun hg => hreplies (gives_initializeParams.mp hg)) h
  | documentSymbol =>
    refine registered_refused (fun hg => hreplies ⟨gives_documentSymbol.mp hg, ?_⟩) h
    have htolerates : Method.documentSymbol.Tolerates env world.server json :=
      (Method.returns_handler hstream).mp ⟨world', h⟩
    exact htolerates.2
  | definition | documentHighlight | hover | implementation | signatureHelp | typeDefinition =>
    exact registered_refused (fun hg => hreplies (gives_textDocumentPosition.mp hg)) h
  | shutdown | codeLens | codeLensResolve | completion | formatting | onTypeFormatting
  | rangeFormatting | rename => exact absurd trivial hreplies
  | exit | codeAction | didChange | didClose | didOpen | didSave | switchSourceHeader
  | didChangeConfiguration | didChangeWatchedFiles | executeCommand =>
    exact Method.neverReplies rfl h

/-- Parameters that can be set can be read. -/
theorem Method.Replies.tolerates {method : Method} {json : Json} {server : Server}
    (h : method.Replies env server json) : method.Tolerates env server json := by
  cases method with
  | initialize_ => exact h
  | documentSymbol =>
    exact ⟨returns_documentSymbol.mp (gives_documentSymbol.mpr h.1).returns, h.2⟩
  | definition | documentHighlight | hover | implementation | signatureHelp | typeDefinition =>
    exact returns_textDocumentPosition.mp (gives_textDocumentPosition.mpr h).returns
  | shutdown | codeLens | codeLensResolve | completion | formatting | onTypeFormatting
  | rangeFormatting | rename => trivial
  | exit | codeAction | didChange | didClose | didOpen | didSave | switchSourceHeader
  | didChangeConfiguration | didChangeWatchedFiles | executeCommand => exact h.elim

/-! ## Calls -/

section Calls

variable {content : Bytes} {msg : Json} {id : Int} {method : Bytes} {stream : OutputStream}
  {world world' : World}

theorem Request.dispatched (h : Request env content msg id method) :
    Dispatched msg (some id) method where
  object := h.object
  version := by
    rw [h.version]
    rfl
  id := by
    rw [h.id]
    exact readOptionalId_int.mpr ⟨rfl, h.fits⟩
  method := h.method

/-- The world in which the handler of a request runs. -/
def World.handling (world : World) (stream : OutputStream) (id : Int) : World :=
  { world with context := handlerContext stream (some id) world.context }

theorem World.handling_stream :
    (world.handling stream id).context.requestOutputStream = some stream :=
  handlerContext_stream stream (some id) world.context

theorem Dispatched.call_eq_ok (hparse : env.rapidjson.parse (cstr content) = some msg)
    (h : Dispatched msg (some id) method) :
    call env content stream world = .ok world' ↔
      ∃ inner, invoke env msg method (world.handling stream id) = .ok inner ∧
        world' = { inner with context := world.context } := by
  have hcall : call env content stream world = handleMessage env msg stream world := by
    unfold call
    rw [hparse]
  rw [hcall, h.handleMessage_eq]
  exact withOptionalId_eq_ok

theorem Dispatched.invoke_eq_ok {m : Method} (h : Dispatched msg (some id) (str m.name))
    (hparams : (paramsOf (msg.get? (str "params"))).IsObject) :
    invoke env msg (str m.name) world = .ok world' ↔
      m.handler env (paramsOf (msg.get? (str "params"))) world = .ok world' := by
  rw [invoke_registered, h.object.findMember]
  refine Except.bind_eq_ok.trans ?_
  constructor
  · intro hcall
    obtain ⟨it, hit, hcall⟩ := hcall
    cases checked_eq_ok.mp hit
    obtain ⟨params, hread, hhandler⟩ := Except.bind_eq_ok.mp hcall
    obtain ⟨_, rfl⟩ := readParams_eq_ok.mp hread
    exact hhandler
  · intro hhandler
    refine ⟨_, checked_eq_ok.mpr rfl, Except.bind_eq_ok.mpr ⟨_, ?_, hhandler⟩⟩
    exact readParams_eq_ok.mpr ⟨hparams, rfl⟩

/-- One answer of the handler is one response of the call. -/
theorem Answers.isResponse {field : Bytes} {value : Json} {inner : World}
    (hfield : field = str "result" ∨ field = str "error")
    (h : Answers env [(field, value)] (world.handling stream id) inner) :
    ∃ sent, inner.sent = world.sent ++ [sent] ∧ IsResponse env stream id sent := by
  have hid : (world.handling stream id).context.requestId = some id :=
    handlerContext_id stream id world.context
  have hstream : (world.handling stream id).context.requestOutputStream = some stream :=
    World.handling_stream
  have hsent := h.sent
  rw [List.flatMap_singleton] at hsent
  have hresponds : ∀ sent ∈ written env (world.handling stream id).context (field, value),
      RespondsTo env stream id sent := written_respondsTo hid hstream (field, value)
  rw [written, hid, hstream] at hsent hresponds
  exact ⟨_, hsent, hresponds _ (List.mem_singleton_self _), field, value, hfield, rfl⟩

/-- A method that is not registered is answered whatever its parameters are. -/
theorem Dispatched.answered_once (hparse : env.rapidjson.parse (cstr content) = some msg)
    (hmsg : Dispatched msg (some id) method)
    (hparams : ∀ m : Method, method = str m.name → (paramsOf (msg.get? (str "params"))).IsObject)
    (h : Answered env world.server method (paramsOf (msg.get? (str "params")))) :
    AnsweredOnce env content stream world id := by
  have hstream : (world.handling stream id).context.requestOutputStream = some stream :=
    World.handling_stream
  rcases h with hnone | ⟨m, rfl, hreplies⟩
  · have hreturns : (errorHandler env (.object []) (world.handling stream id)).Returns :=
      returns_send hstream
    obtain ⟨inner, hinner⟩ := hreturns
    have hanswers : Answers env [(str "error", _)] (world.handling stream id) inner :=
      send_answers hinner
    obtain ⟨sent, hsent, hresponse⟩ := hanswers.isResponse (.inr rfl)
    refine ⟨_, sent, (hmsg.call_eq_ok hparse).mpr ⟨inner, ?_, rfl⟩, hsent, hresponse⟩
    rw [invoke_unregistered hnone]
    exact hinner
  · have hhandling : m.Replies env (world.handling stream id).server
        (paramsOf (msg.get? (str "params"))) := hreplies
    obtain ⟨inner, hinner⟩ := (Method.returns_handler hstream).mpr hhandling.tolerates
    obtain ⟨result, hanswers⟩ := m.handler_once hhandling hinner
    obtain ⟨sent, hsent, hresponse⟩ := hanswers.isResponse (.inl rfl)
    have hinvoke := (hmsg.invoke_eq_ok (hparams m rfl)).mpr hinner
    exact ⟨_, sent, (hmsg.call_eq_ok hparse).mpr ⟨inner, hinvoke, rfl⟩, hsent, hresponse⟩

/-- A request that is not answered writes nothing. -/
theorem sent_of_not_answered (hrequest : Request env content msg id method)
    (h : ¬ Answered env world.server method (paramsOf (msg.get? (str "params"))))
    (hcall : call env content stream world = .ok world') : world'.sent = world.sent := by
  have hstream : (world.handling stream id).context.requestOutputStream = some stream :=
    World.handling_stream
  obtain ⟨inner, hinner, rfl⟩ := (hrequest.dispatched.call_eq_ok hrequest.parse).mp hcall
  rcases registered_or_unregistered method with ⟨m, rfl⟩ | hnone
  · have hsilent := m.handler_silent hstream (fun hreplies => h (.inr ⟨m, rfl, hreplies⟩))
      ((hrequest.dispatched.invoke_eq_ok hrequest.params).mp hinner)
    exact hsilent.sent.trans (List.append_nil _)
  · exact absurd (.inl hnone) h

end Calls

/-! ## A request without members -/

theorem plainRequest_request {content response : Bytes} {method : String} (hcontent : 0 ∉ content)
    (hmethod : 0 ∉ str method) :
    Request (.ofMessage content (plainRequest method) response) content (plainRequest method) 7
      (str method) where
  parse := by
    show (if cstr content = content then some (plainRequest method) else none) = _
    rw [if_pos (cstr_eq_self hcontent)]
  object := ⟨_, rfl⟩
  version := rfl
  fits := ⟨7, rfl, by omega, by omega⟩
  id := rfl
  method := ⟨str method, rfl, (cstr_eq_self hmethod).symm⟩
  params := ⟨[], rfl⟩

/-- A request is answered exactly once if its method is unknown or its handler
replies to its parameters, and otherwise it is not answered. -/
theorem answeredOnce_iff {content : Bytes} {msg : Json} {id : Int} {method : Bytes}
    {stream : OutputStream} {world : World} (hrequest : Request env content msg id method) :
    AnsweredOnce env content stream world id ↔
      Answered env world.server method (paramsOf (msg.get? (str "params"))) := by
  constructor
  · intro h
    obtain ⟨world', sent, hcall, hsent, _⟩ := h
    by_contra hnot
    rw [sent_of_not_answered hrequest hnot hcall] at hsent
    have hlength := congrArg List.length hsent
    rw [List.length_append, List.length_singleton] at hlength
    omega
  · exact hrequest.dispatched.answered_once hrequest.parse fun _ _ => hrequest.params

theorem answeredOnce_shutdown :
    AnsweredOnce shutdownEnvironment shutdownContent 0 World.init 7 :=
  (answeredOnce_iff (plainRequest_request (by decide) (by decide))).mpr
    (.inr ⟨.shutdown, rfl, trivial⟩)

/-- The bytes of a `textDocument/codeAction` request. -/
def codeActionContent : Bytes := str
  "\x7b\"jsonrpc\":\"2.0\",\"id\":7,\"method\":\"textDocument/codeAction\",\"params\":\x7b\x7d\x7d"

theorem codeAction_not_answered :
    Request (.ofMessage codeActionContent (plainRequest "textDocument/codeAction") [])
        codeActionContent (plainRequest "textDocument/codeAction") 7
        (str "textDocument/codeAction") ∧
      ¬ AnsweredOnce (.ofMessage codeActionContent (plainRequest "textDocument/codeAction") [])
        codeActionContent 0 World.init 7 := by
  have hrequest : Request (.ofMessage codeActionContent (plainRequest "textDocument/codeAction") [])
      codeActionContent (plainRequest "textDocument/codeAction") 7
      (str "textDocument/codeAction") := plainRequest_request (by decide) (by decide)
  refine ⟨hrequest, fun h => ?_⟩
  obtain ⟨world', sent, hcall, hsent, _⟩ := h
  rw [sent_of_not_answered hrequest (fun hanswered => ?_) hcall] at hsent
  · cases hsent
  · rcases hanswered with hnone | ⟨m, hm, hreplies⟩
    · exact hnone .codeAction rfl
    · cases @Method.name_injective .codeAction m (str_inj.mp hm)
      exact hreplies

end P4LS
