import P4LS.Server.Commands

/-!
# Handlers

The `on_*` functions of the server.  Many of them only log, and many others only
reply with `null`; the rest look at the store of open documents.
-/

namespace P4LS

open Bytes

/-- A handler that only logs. -/
def onlyLog (world : World) : Except Fault World := .ok world

def replyNull (env : Environment) : World → Except Fault World := reply env .null

/-- Put back a unit after one of its functions was called. -/
def World.setFile (world : World) (path : Bytes) (file : P4File) : World :=
  { world with server := { world.server with
      files := Assoc.modify path (fun _ => file) world.server.files } }

/-! ## The session -/

def onExit (world : World) : Except Fault World := .ok world.setDone

def onInitialize (env : Environment) (world : World) : Except Fault World :=
  reply env (.object [(str "capabilities", world.server.capabilities.getJson)]) world

def onShutdown (env : Environment) : World → Except Fault World := replyNull env

/-! ## Documents -/

def onTextDocumentDidChange (params : ParamsTextDocumentDidChange) (world : World) :
    Except Fault World :=
  let path := params.textDocument.uri.path
  .ok { world with server := { world.server with
      files := Assoc.modify path (·.changeSourceCode params.contentChanges) world.server.files } }

def onTextDocumentDidClose : World → Except Fault World := onlyLog

/-- The unit is built before the store is asked for its key. -/
def onTextDocumentDidOpen (env : Environment) (params : ParamsTextDocumentDidOpen)
    (world : World) : Except Fault World := do
  let path := params.textDocument.uri.path
  let (command, commands) ← findCommandForPath env path world.server.commands
  let file ← P4File.create env.wave command path params.textDocument.text
  return { world with server := { world.server with
      files := Assoc.emplace path file world.server.files, commands := commands } }

def onTextDocumentDidSave : World → Except Fault World := onlyLog

/-! ## Requests about a position -/

/-- The location of the position itself. -/
def ParamsTextDocumentPosition.location (params : ParamsTextDocumentPosition) : Location :=
  { uri := params.textDocument.uri.path,
    range := { start := params.position, stop := params.position } }

def onTextDocumentDefinition (env : Environment) : World → Except Fault World := replyNull env

def onTextDocumentDocumentHighlight (env : Environment) (params : ParamsTextDocumentPosition)
    (world : World) : Except Fault World :=
  let path := params.textDocument.uri.path
  match world.server.files.lookup path with
  | some file =>
    let (highlights, file) := file.getHighlights params.location
    match highlights with
    | some highlights => reply env (.array (highlights.map (·.getJson))) (world.setFile path file)
    | none => replyNull env (world.setFile path file)
  | none => replyNull env world

/-- The definition stands in a fenced block of P4. -/
def hoverContents (definition : Bytes) : MarkupContent :=
  { kind := .markdown, value := str "```p4\n" ++ definition ++ str "\n```" }

def onTextDocumentHover (env : Environment) (params : ParamsTextDocumentPosition)
    (world : World) : Except Fault World :=
  let path := params.textDocument.uri.path
  match world.server.files.lookup path with
  | some file =>
    let (hoverContent, file) := file.getHover params.location
    match hoverContent with
    | some hoverContent =>
      reply env (.object [(str "contents", (hoverContents hoverContent).getJson)])
        (world.setFile path file)
    | none => replyNull env (world.setFile path file)
  | none => replyNull env world

def onTextDocumentImplementation (env : Environment) : World → Except Fault World := replyNull env

def onTextDocumentSignatureHelp (env : Environment) : World → Except Fault World := replyNull env

def onTextDocumentTypeDefinition (env : Environment) : World → Except Fault World := replyNull env

/-! ## Other requests -/

/-- The symbols of the document itself, not of what it includes. -/
def onTextDocumentDocumentSymbol (env : Environment) (params : ParamsTextDocumentDocumentSymbol)
    (world : World) : Except Fault World :=
  let path := params.textDocument.uri.path
  match world.server.files.lookup path with
  | some file => do
    let (symbols, file) ← file.getSymbols env.wave
    let found := symbols.filter (·.location.uri == path)
    reply env (.array (found.map (·.getJson))) (world.setFile path file)
  | none => reply env (.array []) world

def onTextDocumentCodeAction : World → Except Fault World := onlyLog

def onTextDocumentCodeLens (env : Environment) : World → Except Fault World := replyNull env

def onCodeLensResolve (env : Environment) : World → Except Fault World := replyNull env

def onTextDocumentCompletion (env : Environment) : World → Except Fault World := replyNull env

def onTextDocumentFormatting (env : Environment) : World → Except Fault World := replyNull env

def onTextDocumentOnTypeFormatting (env : Environment) : World → Except Fault World :=
  replyNull env

def onTextDocumentRangeFormatting (env : Environment) : World → Except Fault World :=
  replyNull env

def onTextDocumentRename (env : Environment) : World → Except Fault World := replyNull env

def onTextDocumentSwitchSourceHeader : World → Except Fault World := onlyLog

def onWorkspaceDidChangeConfiguration : World → Except Fault World := onlyLog

def onWorkspaceDidChangeWatchedFiles : World → Except Fault World := onlyLog

def onWorkspaceExecuteCommand : World → Except Fault World := onlyLog

/-! ## What the handlers do

Every handler that returns either has answered once, with a result, or has not
answered at all. -/

def RepliesOnce (env : Environment) (handler : World → Except Fault World) : Prop :=
  ∀ world world', handler world = .ok world' →
    ∃ result, Answers env [(str "result", result)] world world'

def NeverReplies (env : Environment) (handler : World → Except Fault World) : Prop :=
  ∀ world world', handler world = .ok world' → Answers env [] world world'

theorem Answers.of_server {env : Environment} {answers : List (Bytes × Json)}
    {world world' : World} {server : Server}
    (h : Answers env answers { world with server := server } world') :
    Answers env answers world world' := ⟨h.context, h.sent⟩

variable {env : Environment}

theorem repliesOnce_reply {result : World → Json} :
    RepliesOnce env fun world => reply env (result world) world := by
  intro world world' h
  exact ⟨_, send_answers h⟩

theorem repliesOnce_initialize : RepliesOnce env (onInitialize env) := repliesOnce_reply

theorem repliesOnce_null : RepliesOnce env (replyNull env) := repliesOnce_reply

theorem neverReplies_onlyLog : NeverReplies env onlyLog := by
  intro world world' h
  cases h
  exact Answers.silent world.server

theorem neverReplies_exit : NeverReplies env onExit := by
  intro world world' h
  cases h
  exact Answers.silent _

theorem neverReplies_didChange (params : ParamsTextDocumentDidChange) :
    NeverReplies env (onTextDocumentDidChange params) := by
  intro world world' h
  cases h
  exact Answers.silent _

theorem neverReplies_didOpen (params : ParamsTextDocumentDidOpen) :
    NeverReplies env (onTextDocumentDidOpen env params) := by
  intro world world' h
  obtain ⟨_, _, h⟩ := Except.bind_eq_ok.mp h
  obtain ⟨_, _, h⟩ := Except.bind_eq_ok.mp h
  cases h
  exact Answers.silent _

theorem repliesOnce_highlight (params : ParamsTextDocumentPosition) :
    RepliesOnce env (onTextDocumentDocumentHighlight env params) := by
  intro world world' h
  unfold onTextDocumentDocumentHighlight at h
  dsimp only at h
  split at h
  · split at h
    · exact ⟨_, (send_answers h).of_server⟩
    · exact ⟨_, (send_answers h).of_server⟩
  · exact ⟨_, send_answers h⟩

theorem repliesOnce_hover (params : ParamsTextDocumentPosition) :
    RepliesOnce env (onTextDocumentHover env params) := by
  intro world world' h
  unfold onTextDocumentHover at h
  dsimp only at h
  split at h
  · split at h
    · exact ⟨_, (send_answers h).of_server⟩
    · exact ⟨_, (send_answers h).of_server⟩
  · exact ⟨_, send_answers h⟩

theorem repliesOnce_documentSymbol (params : ParamsTextDocumentDocumentSymbol) :
    RepliesOnce env (onTextDocumentDocumentSymbol env params) := by
  intro world world' h
  unfold onTextDocumentDocumentSymbol at h
  dsimp only at h
  split at h
  · obtain ⟨_, _, h⟩ := Except.bind_eq_ok.mp h
    exact ⟨_, (send_answers h).of_server⟩
  · exact ⟨_, send_answers h⟩

end P4LS
