import P4LS.Server.Handlers

/-!
# The dispatcher

The registered methods with their handlers, and `Dispatcher::call`, which takes
one message from its bytes to the handler of its method.
-/

namespace P4LS

open Bytes Json

/-! ## Registered methods -/

/-- The methods, in the order they are registered. -/
inductive Method where
  | exit
  | initialize_
  | shutdown
  | codeAction
  | codeLens
  | codeLensResolve
  | completion
  | definition
  | didChange
  | didClose
  | didOpen
  | didSave
  | documentHighlight
  | documentSymbol
  | formatting
  | hover
  | implementation
  | onTypeFormatting
  | rangeFormatting
  | rename
  | signatureHelp
  | switchSourceHeader
  | typeDefinition
  | didChangeConfiguration
  | didChangeWatchedFiles
  | executeCommand
  deriving DecidableEq

def Method.name : Method → String
  | exit => "exit"
  | initialize_ => "initialize"
  | shutdown => "shutdown"
  | codeAction => "textDocument/codeAction"
  | codeLens => "textDocument/codeLens"
  | codeLensResolve => "codeLens/resolve"
  | completion => "textDocument/completion"
  | definition => "textDocument/definition"
  | didChange => "textDocument/didChange"
  | didClose => "textDocument/didClose"
  | didOpen => "textDocument/didOpen"
  | didSave => "textDocument/didSave"
  | documentHighlight => "textDocument/documentHighlight"
  | documentSymbol => "textDocument/documentSymbol"
  | formatting => "textDocument/formatting"
  | hover => "textDocument/hover"
  | implementation => "textDocument/implementation"
  | onTypeFormatting => "textDocument/onTypeFormatting"
  | rangeFormatting => "textDocument/rangeFormatting"
  | rename => "textDocument/rename"
  | signatureHelp => "textDocument/signatureHelp"
  | switchSourceHeader => "textDocument/switchSourceHeader"
  | typeDefinition => "textDocument/typeDefinition"
  | didChangeConfiguration => "workspace/didChangeConfiguration"
  | didChangeWatchedFiles => "workspace/didChangeWatchedFiles"
  | executeCommand => "workspace/executeCommand"

def Method.all : List Method :=
  [exit, initialize_, shutdown, codeAction, codeLens, codeLensResolve, completion, definition,
    didChange, didClose, didOpen, didSave, documentHighlight, documentSymbol, formatting, hover,
    implementation, onTypeFormatting, rangeFormatting, rename, signatureHelp, switchSourceHeader,
    typeDefinition, didChangeConfiguration, didChangeWatchedFiles, executeCommand]

abbrev Handler := Json → World → Except Fault World

/-- `registration_helper`: without parameters the handler is not called. -/
def registered {α : Type} (setParams : Json → Decoder α)
    (handler : α → World → Except Fault World) : Handler := fun json world => do
  match ← checked (setParams json).run with
  | some params => handler params world
  | none => return world

def Method.handler (env : Environment) : Method → Handler
  | exit => registered noParams fun _ => onExit
  | initialize_ => registered ParamsInitialize.set fun _ => onInitialize env
  | shutdown => registered noParams fun _ => onShutdown env
  | codeAction => registered noParams fun _ => onTextDocumentCodeAction
  | codeLens => registered noParams fun _ => onTextDocumentCodeLens env
  | codeLensResolve => registered noParams fun _ => onCodeLensResolve env
  | completion => registered noParams fun _ => onTextDocumentCompletion env
  | definition => registered ParamsTextDocumentPosition.set fun _ => onTextDocumentDefinition env
  | didChange => registered ParamsTextDocumentDidChange.set onTextDocumentDidChange
  | didClose => registered noParams fun _ => onTextDocumentDidClose
  | didOpen => registered ParamsTextDocumentDidOpen.set (onTextDocumentDidOpen env)
  | didSave => registered ParamsTextDocumentDidSave.set fun _ => onTextDocumentDidSave
  | documentHighlight =>
    registered ParamsTextDocumentPosition.set (onTextDocumentDocumentHighlight env)
  | documentSymbol =>
    registered ParamsTextDocumentDocumentSymbol.set (onTextDocumentDocumentSymbol env)
  | formatting => registered noParams fun _ => onTextDocumentFormatting env
  | hover => registered ParamsTextDocumentPosition.set (onTextDocumentHover env)
  | implementation =>
    registered ParamsTextDocumentPosition.set fun _ => onTextDocumentImplementation env
  | onTypeFormatting => registered noParams fun _ => onTextDocumentOnTypeFormatting env
  | rangeFormatting => registered noParams fun _ => onTextDocumentRangeFormatting env
  | rename => registered noParams fun _ => onTextDocumentRename env
  | signatureHelp =>
    registered ParamsTextDocumentPosition.set fun _ => onTextDocumentSignatureHelp env
  | switchSourceHeader => registered noParams fun _ => onTextDocumentSwitchSourceHeader
  | typeDefinition =>
    registered ParamsTextDocumentPosition.set fun _ => onTextDocumentTypeDefinition env
  | didChangeConfiguration => registered noParams fun _ => onWorkspaceDidChangeConfiguration
  | didChangeWatchedFiles => registered noParams fun _ => onWorkspaceDidChangeWatchedFiles
  | executeCommand => registered noParams fun _ => onWorkspaceExecuteCommand

/-- `register_protocol_handlers`. -/
def handlers (env : Environment) : List (Bytes × Handler) :=
  Method.all.map fun method => (str method.name, method.handler env)

/-- The error handler that `run` installs. -/
def errorHandler (env : Environment) : Handler := fun _ =>
  replyError env .methodNotFound (str "method not found")

/-! ## One call -/

/-- A `jsonrpc` member that is the version, as C strings compare. -/
def isVersion : Option Json → Bool
  | some (.string s) => cstr s == jsonrpcVersion
  | _ => false

/-- An id is a number or a string that is converted to one. -/
def readId : Json → Except Fault Int
  | .string s => (stoi (cstr s) 10).mapError .conversion
  | value => checked value.getInt

def readOptionalId : Option Json → Except Fault (Option Int)
  | none => return none
  | some value => return some (← readId value)

/-- The object a handler is called with. -/
def readParams : Option Json → Except Fault Json
  | none => return .object []
  | some .null => return .object []
  | some params => checked params.getObject

/-- The handler of the method, or the error handler. -/
def invoke (env : Environment) (msg : Json) (method : Bytes) (world : World) :
    Except Fault World := do
  match (handlers env).lookup method with
  | some handler =>
    let params ← readParams (← checked (msg.findMember (str "params")))
    handler params world
  | none => errorHandler env (.object []) world

def withOptionalId (id : Option Int) (body : World → Except Fault World) :
    World → Except Fault World :=
  match id with
  | some n => scopedContext .requestId n body
  | none => body

def handleMessage (env : Environment) (msg : Json) (stream : OutputStream) (world : World) :
    Except Fault World := do
  if isVersion (← checked (msg.findMember (str "jsonrpc"))) then
    let id ← readOptionalId (← checked (msg.findMember (str "id")))
    match ← checked (msg.findMember (str "method")) with
    | some (.string s) =>
      scopedContext .requestOutputStream stream (withOptionalId id (invoke env msg (cstr s))) world
    | _ => return world
  else
    return world

/-- `Dispatcher::call`. -/
def call (env : Environment) (content : Bytes) (stream : OutputStream) (world : World) :
    Except Fault World :=
  match env.rapidjson.parse (cstr content) with
  | none => return world
  | some msg => handleMessage env msg stream world

theorem readOptionalId_int {n : Int} {id : Option Int} :
    readOptionalId (some (.int n)) = .ok id ↔ id = some n ∧ IsInt (.int n) := by
  refine Except.bind_eq_ok.trans ?_
  constructor
  · intro h
    obtain ⟨m, hm, hid⟩ := h
    obtain ⟨rfl, hrange⟩ := getInt_eq_ok.mp (checked_eq_ok.mp hm)
    exact ⟨(Except.ok.inj hid).symm, _, rfl, hrange⟩
  · intro h
    obtain ⟨rfl, m, hm, hrange⟩ := h
    cases hm
    exact ⟨n, checked_eq_ok.mpr (getInt_eq_ok.mpr ⟨rfl, hrange⟩), rfl⟩

/-! ## Looking up a method -/

theorem Method.mem_all (method : Method) : method ∈ all := by
  cases method <;> simp [all]

theorem Method.name_injective : Function.Injective name := by
  have h : (all.map name).Nodup := by decide +kernel
  exact fun a b => List.inj_on_of_nodup_map h a.mem_all b.mem_all

theorem lookup_map_of_injective {α β κ : Type} [BEq κ] [LawfulBEq κ] {f : α → κ}
    {g : α → β}
    (hf : Function.Injective f) {a : α} {l : List α} (h : a ∈ l) :
    (l.map fun a => (f a, g a)).lookup (f a) = some (g a) := by
  induction l with
  | nil => exact absurd h List.not_mem_nil
  | cons b l ih =>
    rw [List.map_cons, List.lookup_cons]
    by_cases hab : a = b
    · subst hab
      simp
    · have hne : (f a == f b) = false := beq_eq_false_iff_ne.mpr fun heq => hab (hf heq)
      rw [hne]
      exact ih (List.mem_of_ne_of_mem hab h)

theorem lookup_handler (env : Environment) (method : Method) :
    (handlers env).lookup (str method.name) = some (method.handler env) :=
  lookup_map_of_injective (f := fun method : Method => str method.name)
    (fun _ _ h => Method.name_injective (str_inj.mp h)) method.mem_all

/-- A name no method has. -/
def Unregistered (method : Bytes) : Prop := ∀ m : Method, str m.name ≠ method

theorem lookup_unregistered {env : Environment} {method : Bytes} (h : Unregistered method) :
    (handlers env).lookup method = none := by
  rw [List.lookup_eq_none_iff]
  intro entry hentry
  obtain ⟨m, _, rfl⟩ := List.mem_map.mp hentry
  exact bne_iff_ne.mpr fun heq => h m heq.symm

theorem registered_or_unregistered (method : Bytes) :
    (∃ m : Method, method = str m.name) ∨ Unregistered method := by
  by_cases h : ∃ m : Method, method = str m.name
  · exact .inl h
  · exact .inr fun m heq => h ⟨m, heq.symm⟩

/-! ## What a registered handler does -/

/-- The handler is called with the parameters, or the world stays as it is. -/
theorem registered_eq_ok {α : Type} {setParams : Json → Decoder α}
    {handler : α → World → Except Fault World} {json : Json} {world world' : World} :
    registered setParams handler json world = .ok world' ↔
      (∃ params, (setParams json).run = .ok (some params) ∧ handler params world = .ok world') ∨
        ((setParams json).run = .ok none ∧ world' = world) := by
  rw [registered, Except.bind_eq_ok]
  constructor
  · intro h
    obtain ⟨it, hit, h⟩ := h
    cases it with
    | some params => exact .inl ⟨params, checked_eq_ok.mp hit, h⟩
    | none => exact .inr ⟨checked_eq_ok.mp hit, (Except.ok.inj h).symm⟩
  · intro h
    rcases h with ⟨params, hit, h⟩ | ⟨hit, h⟩
    · exact ⟨some params, checked_eq_ok.mpr hit, h⟩
    · exact ⟨none, checked_eq_ok.mpr hit, by rw [h]; rfl⟩

/-- The answers of a call: at most one, and then a result or an error. -/
inductive AtMostOne : List (Bytes × Json) → Prop where
  | silent : AtMostOne []
  | result (result : Json) : AtMostOne [(str "result", result)]
  | error (error : Json) : AtMostOne [(str "error", error)]

theorem registered_answers_once {α : Type} {env : Environment} {setParams : Json → Decoder α}
    {handler : α → World → Except Fault World} {json : Json} {world world' : World}
    (hhandler : ∀ params, RepliesOnce env (handler params))
    (h : registered setParams handler json world = .ok world') :
    ∃ answers, AtMostOne answers ∧ Answers env answers world world' := by
  rcases registered_eq_ok.mp h with ⟨params, _, h⟩ | ⟨_, h⟩
  · obtain ⟨result, hanswers⟩ := hhandler params world world' h
    exact ⟨_, .result result, hanswers⟩
  · rw [h]
    exact ⟨[], .silent, Answers.silent world.server⟩

theorem registered_silent {α : Type} {env : Environment} {setParams : Json → Decoder α}
    {handler : α → World → Except Fault World} {json : Json} {world world' : World}
    (hhandler : ∀ params, NeverReplies env (handler params))
    (h : registered setParams handler json world = .ok world') :
    Answers env [] world world' := by
  rcases registered_eq_ok.mp h with ⟨params, _, h⟩ | ⟨_, h⟩
  · exact hhandler params world world' h
  · rw [h]
    exact Answers.silent world.server

/-- The methods whose handlers only log or work on the server. -/
def Method.isSilent : Method → Bool
  | exit | codeAction | didChange | didClose | didOpen | didSave | switchSourceHeader
  | didChangeConfiguration | didChangeWatchedFiles | executeCommand => true
  | _ => false

theorem Method.neverReplies {env : Environment} {method : Method} {json : Json}
    {world world' : World} (hsilent : method.isSilent = true)
    (h : method.handler env json world = .ok world') : Answers env [] world world' := by
  cases method with
  | exit => exact registered_silent (fun _ => neverReplies_exit) h
  | didChange => exact registered_silent neverReplies_didChange h
  | didOpen => exact registered_silent neverReplies_didOpen h
  | codeAction | didClose | didSave | switchSourceHeader | didChangeConfiguration
  | didChangeWatchedFiles | executeCommand =>
    exact registered_silent (fun _ => neverReplies_onlyLog) h
  | _ => cases hsilent

theorem Method.handler_answers {env : Environment} {method : Method} {json : Json}
    {world world' : World} (h : method.handler env json world = .ok world') :
    ∃ answers, AtMostOne answers ∧ Answers env answers world world' := by
  by_cases hsilent : method.isSilent = true
  · exact ⟨[], .silent, method.neverReplies hsilent h⟩
  · cases method with
    | initialize_ => exact registered_answers_once (fun _ => repliesOnce_initialize) h
    | documentHighlight => exact registered_answers_once repliesOnce_highlight h
    | documentSymbol => exact registered_answers_once repliesOnce_documentSymbol h
    | hover => exact registered_answers_once repliesOnce_hover h
    | shutdown | codeLens | codeLensResolve | completion | definition | formatting | implementation
    | onTypeFormatting | rangeFormatting | rename | signatureHelp | typeDefinition =>
      exact registered_answers_once (fun _ => repliesOnce_null) h
    | _ => exact absurd rfl hsilent

theorem invoke_registered {env : Environment} {msg : Json} {method : Method} {world : World} :
    invoke env msg (str method.name) world =
      checked (msg.findMember (str "params")) >>= fun it =>
        readParams it >>= fun params => method.handler env params world := by
  rw [invoke, lookup_handler]

theorem invoke_unregistered {env : Environment} {msg : Json} {method : Bytes} {world : World}
    (h : Unregistered method) :
    invoke env msg method world = errorHandler env (.object []) world := by
  rw [invoke, lookup_unregistered h]

theorem invoke_answers {env : Environment} {msg : Json} {method : Bytes} {world world' : World}
    (h : invoke env msg method world = .ok world') :
    ∃ answers, AtMostOne answers ∧ Answers env answers world world' := by
  rcases registered_or_unregistered method with ⟨m, rfl⟩ | hnone
  · rw [invoke_registered] at h
    obtain ⟨_, _, h⟩ := Except.bind_eq_ok.mp h
    obtain ⟨_, _, h⟩ := Except.bind_eq_ok.mp h
    exact m.handler_answers h
  · rw [invoke_unregistered hnone] at h
    exact ⟨_, .error _, send_answers h⟩

/-! ## What a call does -/

/-- The context a handler runs in. -/
def handlerContext (stream : OutputStream) (id : Option Int) (context : ThreadContext) :
    ThreadContext :=
  match id with
  | some n => (context.derive .requestOutputStream stream).derive .requestId n
  | none => context.derive .requestOutputStream stream

theorem handlerContext_stream (stream : OutputStream) (id : Option Int) (context : ThreadContext) :
    (handlerContext stream id context).requestOutputStream = some stream := by
  cases id with
  | none => exact Context.getValue_derive_self _ _ _
  | some n =>
    refine (Context.getValue_derive_of_ne ?_ _ _).trans (Context.getValue_derive_self _ _ _)
    exact ContextKey.noConfusion

theorem handlerContext_id (stream : OutputStream) (n : Int) (context : ThreadContext) :
    (handlerContext stream (some n) context).requestId = some n :=
  Context.getValue_derive_self _ _ _

theorem handlerContext_no_id (stream : OutputStream) (context : ThreadContext) :
    (handlerContext stream none context).requestId = context.requestId :=
  Context.getValue_derive_of_ne ContextKey.noConfusion _ _

/-- What a message has to be for its method to be invoked. -/
structure Dispatched (msg : Json) (id : Option Int) (method : Bytes) : Prop where
  object : msg.IsObject
  version : isVersion (msg.get? (str "jsonrpc")) = true
  id : readOptionalId (msg.get? (str "id")) = .ok id
  method : ∃ s, msg.get? (str "method") = some (.string s) ∧ method = cstr s

theorem handleMessage_eq {env : Environment} {msg : Json} {stream : OutputStream} {world : World}
    (h : msg.IsObject) : handleMessage env msg stream world =
      if isVersion (msg.get? (str "jsonrpc")) then
        readOptionalId (msg.get? (str "id")) >>= fun id =>
          match msg.get? (str "method") with
          | some (.string s) =>
            scopedContext .requestOutputStream stream
              (withOptionalId id (invoke env msg (cstr s))) world
          | _ => return world
      else return world := by
  simp only [handleMessage, checked, h.findMember]
  rfl

/-- Both scopes end when the handler returns. -/
theorem withOptionalId_eq_ok {body : World → Except Fault World} {id : Option Int}
    {stream : OutputStream} {world world' : World} :
    scopedContext .requestOutputStream stream (withOptionalId id body) world = .ok world' ↔
      ∃ inner, body { world with context := handlerContext stream id world.context } = .ok inner ∧
        world' = { inner with context := world.context } := by
  refine scopedContext_eq_ok.trans ?_
  cases id with
  | none => rfl
  | some n =>
    constructor
    · intro h
      obtain ⟨_, hbody, rfl⟩ := h
      obtain ⟨inner, hinner, rfl⟩ := scopedContext_eq_ok.mp hbody
      exact ⟨inner, hinner, rfl⟩
    · intro h
      obtain ⟨inner, hinner, rfl⟩ := h
      exact ⟨_, scopedContext_eq_ok.mpr ⟨inner, hinner, rfl⟩, rfl⟩

theorem returns_withOptionalId {body : World → Except Fault World} {id : Option Int}
    {stream : OutputStream} {world : World} :
    (scopedContext .requestOutputStream stream (withOptionalId id body) world).Returns ↔
      (body { world with context := handlerContext stream id world.context }).Returns := by
  constructor
  · intro h
    obtain ⟨_, hworld⟩ := h
    obtain ⟨inner, hinner, _⟩ := withOptionalId_eq_ok.mp hworld
    exact ⟨inner, hinner⟩
  · intro h
    obtain ⟨inner, hinner⟩ := h
    exact ⟨_, withOptionalId_eq_ok.mpr ⟨inner, hinner, rfl⟩⟩

theorem Dispatched.handleMessage_eq {env : Environment} {msg : Json} {stream : OutputStream}
    {world : World} {id : Option Int} {method : Bytes} (h : Dispatched msg id method) :
    handleMessage env msg stream world =
      scopedContext .requestOutputStream stream (withOptionalId id (invoke env msg method))
        world := by
  obtain ⟨s, hs, rfl⟩ := h.method
  rw [P4LS.handleMessage_eq h.object, if_pos h.version, h.id, hs]
  rfl

/-- A message that is not dispatched changes nothing. -/
theorem handleMessage_cases {env : Environment} {msg : Json} {stream : OutputStream}
    {world world' : World} (h : handleMessage env msg stream world = .ok world') :
    world' = world ∨ ∃ id method, Dispatched msg id method := by
  obtain ⟨it, hit, _⟩ := Except.bind_eq_ok.mp h
  have hobj : msg.IsObject := (findMember_eq_ok.mp (checked_eq_ok.mp hit)).1
  rw [handleMessage_eq hobj] at h
  by_cases hversion : isVersion (msg.get? (str "jsonrpc")) = true
  · rw [if_pos hversion] at h
    obtain ⟨id, hid, h⟩ := Except.bind_eq_ok.mp h
    split at h
    · rename_i s hs
      exact .inr ⟨id, cstr s, hobj, hversion, hid, s, hs, rfl⟩
    · cases h
      exact .inl rfl
  · rw [if_neg hversion] at h
    cases h
    exact .inl rfl

/-- A call restores the context, and what it writes are the answers of the
handler in the handler's context. -/
theorem handleMessage_answers {env : Environment} {msg : Json} {stream : OutputStream}
    {world world' : World} (h : handleMessage env msg stream world = .ok world') :
    world' = world ∨ ∃ id method answers, Dispatched msg id method ∧ AtMostOne answers ∧
      world'.context = world.context ∧ world'.sent = world.sent ++
        answers.flatMap (written env (handlerContext stream id world.context)) := by
  rcases handleMessage_cases h with hworld | ⟨id, method, hmsg⟩
  · exact .inl hworld
  · rw [hmsg.handleMessage_eq] at h
    obtain ⟨inner, hinner, rfl⟩ := withOptionalId_eq_ok.mp h
    obtain ⟨answers, hone, hanswers⟩ := invoke_answers hinner
    exact .inr ⟨id, method, answers, hmsg, hone, rfl, hanswers.sent⟩

end P4LS
