import P4LS.Library.Assoc
import P4LS.Library.Context
import P4LS.Protocol.Params
import P4LS.Unit.File

/-!
# The server and its replies

The state a message is handled in: the server's members, the context of the
worker thread, and what has been written to the output streams.  The JSON
library, the file system and the preprocessor are outside the repository and
are the parameters of an `Environment`, and so is what is left in memory that
has been given back.
-/

namespace P4LS

open Bytes

/-- The parser takes a C string, and the writer serialises a value. -/
structure Rapidjson where
  parse : Bytes → Option Json
  write : Json → Bytes

/-- The operations on paths and files.  A path without a parent has an empty
parent path, and the status of a file can fail to be had. -/
structure FileSystem where
  parentPath : Bytes → Bytes
  append : Bytes → Bytes → Bytes
  status : Bytes → Except Fault Bool
  read : Bytes → Bytes
  parentPath_shorter : ∀ path, parentPath path ≠ [] → (parentPath path).length < path.length

/-- What the storage of a destroyed string is read as: the read may fail, and otherwise gives as
many bytes as the string had.  In one environment this depends on the string alone. -/
structure FreedStorage where
  read : Bytes → Option Bytes
  length_read : ∀ s storage, read s = some storage → storage.length = s.length

/-- Nothing has been written over the string yet. -/
def FreedStorage.intact : FreedStorage where
  read := some
  length_read _ _ h := congrArg List.length (Option.some.inj h).symm

structure Environment where
  rapidjson : Rapidjson
  fileSystem : FileSystem
  wave : Preprocessor
  freed : FreedStorage

/-- The same world with other storage behind destroyed strings. -/
def Environment.withFreed (env : Environment) (freed : FreedStorage) : Environment :=
  { env with freed := freed }

/-- A world without files in which one content parses, and one response is
serialised. -/
def Environment.ofMessage (content : Bytes) (msg : Json) (response : Bytes) : Environment where
  rapidjson := { parse := fun s => if s = content then some msg else none,
                 write := fun _ => response }
  fileSystem := { parentPath := fun _ => [], append := fun path name => path ++ ch '/' :: name,
                  status := fun _ => .ok false, read := fun _ => [],
                  parentPath_shorter := fun _ h => absurd rfl h }
  wave := fun _ _ => .ok ()
  freed := .intact

/-! ## The context of the worker thread -/

inductive ContextKey where
  | requestId
  | requestOutputStream
  deriving DecidableEq

/-- A reference to an output stream. -/
abbrev OutputStream := Nat

def ContextKey.Value : ContextKey → Type
  | .requestId => Int
  | .requestOutputStream => OutputStream

abbrev ThreadContext := Context ContextKey.Value

def ThreadContext.requestId (context : ThreadContext) : Option Int :=
  Context.getValue ContextKey.requestId context

def ThreadContext.requestOutputStream (context : ThreadContext) : Option OutputStream :=
  Context.getValue ContextKey.requestOutputStream context

/-! ## The state -/

structure Server where
  capabilities : ServerCapabilities
  isDone : Bool
  files : List (Bytes × P4File)
  commands : List (Bytes × Bytes)

/-- One message on an output stream, and the value it was written from. -/
structure Sent where
  stream : OutputStream
  value : Json
  message : Bytes

structure World where
  server : Server
  context : ThreadContext
  sent : List Sent

/-- The capabilities the constructor of the server sets. -/
def serverCapabilities : ServerCapabilities where
  workspace := none
  textDocumentSync := some {
    openClose := some true
    willSave := some true
    willSaveWaitUntil := some true
    save := some { includeText := some true }
    change := some .incremental }
  completionProvider := none
  signatureHelpProvider := none
  codeLensProvider := none
  documentOnTypeFormattingProvider := none
  documentLinkProvider := none
  colorProvider := none
  executeCommandProvider := none
  hoverProvider := some true
  definitionProvider := some true
  typeDefinitionProvider := some true
  implementationProvider := some true
  referencesProvider := some true
  documentHighlightProvider := some true
  documentSymbolProvider := some true
  workspaceSymbolProvider := none
  codeActionProvider := none
  documentFormattingProvider := none
  documentRangeFormattingProvider := none
  renameProvider := some true

/-- The server after its constructor. -/
def Server.init : Server :=
  { capabilities := serverCapabilities, isDone := false, files := [], commands := [] }

/-- The thread has an empty context before it handles its first message. -/
def World.init : World := { server := .init, context := [], sent := [] }

/-- `_is_done = true`, which ends the loop of `run`. -/
def World.setDone (world : World) : World :=
  { world with server := { world.server with isDone := true } }

/-! ## Scopes -/

/-- `Scoped_context`: the context has one more binding while the body runs. -/
def scopedContext (key : ContextKey) (value : key.Value) (body : World → Except Fault World)
    (world : World) : Except Fault World := do
  let world' ← body { world with context := world.context.derive key value }
  return { world' with context := world.context }

theorem scopedContext_eq_ok {key : ContextKey} {value : key.Value}
    {body : World → Except Fault World} {world after : World} :
    scopedContext key value body world = .ok after ↔
      ∃ world', body { world with context := world.context.derive key value } = .ok world' ∧
        after = { world' with context := world.context } := by
  rw [scopedContext, Except.bind_eq_ok]
  refine exists_congr fun world' => and_congr_right fun _ => ?_
  constructor
  · intro h
    exact (Except.ok.inj h).symm
  · intro h
    rw [h]
    rfl

/-! ## Replies -/

def jsonrpcVersion : Bytes := str "2.0"

/-- The value of a response. -/
def responseValue (id : Int) (field : Bytes) (result : Json) : Json :=
  .object [(str "jsonrpc", .string jsonrpcVersion), (str "id", .int id), (field, result)]

/-- A header with the length of the content, and the content. -/
def frame (content : Bytes) : Bytes :=
  str "Content-Length: " ++ toDecimal content.length ++ str "\r\n\r\n" ++ content

/-- The serialised value, as it is taken out of the buffer. -/
def serialize (env : Environment) (value : Json) : Bytes := cstr (env.rapidjson.write value)

/-- Without a request id there is no reply. -/
def send (env : Environment) (field : Bytes) (result : Json) (world : World) :
    Except Fault World :=
  match world.context.requestId with
  | none => .ok world
  | some id =>
    let value := responseValue id field result
    let message := frame (serialize env value)
    match world.context.requestOutputStream with
    | none => .error .noContextValue
    | some stream =>
      .ok { world with sent := world.sent ++ [{ stream := stream, value := value,
                                                message := message }] }

def reply (env : Environment) (result : Json) : World → Except Fault World :=
  send env (str "result") result

def replyError (env : Environment) (code : ErrorCode) (msg : Bytes) :
    World → Except Fault World :=
  send env (str "error") (.object [(str "code", .int code.toInt), (str "message", .string msg)])

/-- What a reply with this field adds to the output in a context. -/
def written (env : Environment) (context : ThreadContext) (answer : Bytes × Json) : List Sent :=
  match context.requestId, context.requestOutputStream with
  | some id, some stream =>
    [{ stream := stream, value := responseValue id answer.1 answer.2,
       message := frame (serialize env (responseValue id answer.1 answer.2)) }]
  | _, _ => []

/-- What a handler may do to the world: it answers, and it works on the server,
but it leaves the context and what was written before alone. -/
structure Answers (env : Environment) (answers : List (Bytes × Json)) (world world' : World) :
    Prop where
  context : world'.context = world.context
  sent : world'.sent = world.sent ++ answers.flatMap (written env world.context)

theorem Answers.silent {env : Environment} {world : World} (server : Server) :
    Answers env [] world { world with server := server } :=
  ⟨rfl, (List.append_nil _).symm⟩

theorem send_answers {env : Environment} {field : Bytes} {result : Json} {world world' : World}
    (h : send env field result world = .ok world') :
    Answers env [(field, result)] world world' := by
  unfold send at h
  cases hid : world.context.requestId with
  | none =>
    rw [hid] at h
    cases h
    refine ⟨rfl, ?_⟩
    simp [written, hid]
  | some id =>
    cases hstream : world.context.requestOutputStream with
    | none =>
      rw [hid, hstream] at h
      cases h
    | some stream =>
      rw [hid, hstream] at h
      cases h
      refine ⟨rfl, ?_⟩
      simp [written, hid, hstream]

/-- With a stream in the context a reply always returns. -/
theorem returns_send {env : Environment} {field : Bytes} {result : Json} {world : World}
    {stream : OutputStream}
    (h : world.context.requestOutputStream = some stream) :
    (send env field result world).Returns := by
  unfold send
  cases hid : world.context.requestId with
  | none => exact Except.returns_ok _
  | some id =>
    simp only [h]
    exact Except.returns_ok _

end P4LS
