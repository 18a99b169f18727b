import P4LS.Server.Pipeline

/-!
# Conversations

A client writes its requests as frames and reads the output of the server in the way the server
reads its input.  In every run the calls that came back are those of the first requests, in their
order, and the client reads whole responses, at most one for each of them and with its id.
-/

namespace P4LS

open Bytes WorkQueue

variable {env : Environment} {stream : OutputStream} {actions : List Action} {s : Pipeline}

/-! ## What the server reads -/

/-- Nothing more is read: the input has failed, or there is nothing left of it. -/
def AtEnd (input : Input) : Prop := input.good = false ∨ input = .ofBytes [] false

theorem ReadStep.atEnd {input input' : Input} {message : Option Bytes} (hend : AtEnd input)
    (h : ReadStep input message input') : message = none ∧ AtEnd input' := by
  rcases hend with hgood | rfl
  · have hagain : ReadStep input none input := by
      refine ⟨1, ?_⟩
      rw [readMessage, readHeader, headerRound, hgood]
      rfl
    obtain ⟨rfl, rfl⟩ := h.deterministic hagain
    exact ⟨rfl, .inl hgood⟩
  · have hnone : ∃ last, ReadStep (.ofBytes [] false) none last ∧ last.good = false :=
      ⟨_, ⟨1, rfl⟩, rfl⟩
    obtain ⟨last, hlast, hgood⟩ := hnone
    obtain ⟨rfl, rfl⟩ := h.deterministic hlast
    exact ⟨rfl, .inl hgood⟩

/-- At the end no call of `read_message` gives a message. -/
theorem reads_atEnd {input input' : Input} {messages : List (Option Bytes)}
    (hrun : Run ReadStep input messages input') (hend : AtEnd input) :
    messages.reduceOption = [] := by
  induction hrun with
  | nil _ => rfl
  | cons step _ ih =>
    obtain ⟨rfl, hend'⟩ := step.atEnd hend
    exact ih hend'

/-- A message that is neither empty nor too long. -/
def Sendable (content : Bytes) : Prop := 0 < content.length ∧ content.length ≤ maxLength

/-- Framed messages are read one by one. -/
theorem run_framed {contents : List Bytes} (h : ∀ content ∈ contents, Sendable content)
    (interrupted : Bool) :
    Run ReadStep (.ofBytes (contents.flatMap frame) interrupted) (contents.map some)
      (.ofBytes [] interrupted) := by
  induction contents with
  | nil => exact .nil _
  | cons content contents ih =>
    obtain ⟨hcontent, hcontents⟩ := List.forall_mem_cons.mp h
    rw [List.flatMap_cons, List.map_cons]
    exact .cons (readStep_frame hcontent _) (ih hcontents)

/-- Of framed messages every run of calls gives the first ones. -/
theorem messages_first {contents : List Bytes} (h : ∀ content ∈ contents, Sendable content)
    {messages : List (Option Bytes)} {input : Input}
    (hrun : Run ReadStep (.ofBytes (contents.flatMap frame) false) messages input) :
    messages.reduceOption <+: contents := by
  have hall := run_framed h false
  have hsome : (contents.map some).filterMap id = contents := by
    rw [List.filterMap_map]
    exact List.filterMap_some
  show messages.filterMap id <+: contents
  rcases hrun.prefix_or (fun _ _ _ _ _ h₁ h₂ => h₁.deterministic h₂) hall with
    ⟨rest, hrest⟩ | ⟨rest, rfl⟩
  · rw [← hsome, ← hrest, List.filterMap_append]
    exact List.prefix_append _ _
  · obtain ⟨input', hfirst, hrest⟩ := hrun.split
    have hinput' : input' = .ofBytes [] false :=
      hfirst.deterministic (fun _ _ _ _ h₁ h₂ => (h₁.deterministic h₂).2) hall
    have hnone : rest.filterMap id = [] := reads_atEnd hrest (.inr hinput')
    have hmessages : (contents.map some ++ rest).filterMap id = contents := by
      rw [List.filterMap_append, hsome, hnone, List.append_nil]
    exact ⟨[], by rw [hmessages, List.append_nil]⟩

/-- The calls that came back are those of the first messages read. -/
theorem completed_first {input : Input}
    (hrun : Run (PipelineStep env stream) (.init input) actions s) :
    completed actions <+: messages actions := by
  have hio := pipeline_io hrun
  have hqueue : dispatched actions ++ s.io.queue = posted (events actions) :=
    taken_append_queue hio
  have hrunning : completed actions ++ s.io.running.toList = dispatched actions :=
    finished_append_running hio
  have hposted : posted (events actions) ++ s.reader.hand = messages actions :=
    posted_append_hand hrun
  rw [← hposted, ← hqueue, ← hrunning, List.append_assoc, List.append_assoc]
  exact List.prefix_append _ _

/-! ## What the client reads -/

/-- The responses to a request: at most one, which parses to a value with the id of the request. -/
structure Answer (env : Environment) (request : Bytes) (responses : List Bytes) : Prop where
  atMostOne : responses.length ≤ 1
  id : ∀ response ∈ responses, ∃ id, readOptionalId (messageId env request) = .ok (some id) ∧
    messageId env response = some (.int id)

/-- The contents of what was sent. -/
def contentsOf (env : Environment) (sent : List Sent) : List Bytes :=
  sent.map fun response => serialize env response.value

theorem Caused.answer {request : Bytes} {sent : List Sent} (h : Caused env stream request sent)
    (hparse : ∀ response ∈ sent,
      env.rapidjson.parse (cstr (serialize env response.value)) = some response.value) :
    Answer env request (contentsOf env sent) where
  atMostOne := by
    rw [contentsOf, List.length_map]
    exact h.atMostOne
  id response hresponse := by
    obtain ⟨sent, hsent, rfl⟩ := List.mem_map.mp hresponse
    obtain ⟨id, hid, hresponds⟩ := h.responds sent hsent
    refine ⟨id, hid, ?_⟩
    rw [messageId, hparse sent hsent, Option.bind_some, hresponds.id]

theorem answers_of_caused {requests : List Bytes} {replies : List (List Sent)}
    (h : List.Forall₂ (Caused env stream) requests replies)
    (hparse : ∀ sent ∈ replies.flatten,
      env.rapidjson.parse (cstr (serialize env sent.value)) = some sent.value) :
    List.Forall₂ (Answer env) requests (replies.map (contentsOf env)) := by
  induction h with
  | nil => exact .nil
  | cons hcaused _ ih =>
    rw [List.flatten_cons, List.forall_mem_append] at hparse
    exact .cons (hcaused.answer hparse.1) (ih hparse.2)

/-- In every run on framed requests the calls that came back are those of the first requests, and
the output is read by `read_message` as the responses to them, in their order and nothing else. -/
theorem conversation {requests : List Bytes} (hrequests : ∀ request ∈ requests, Sendable request)
    (hrun : Run (PipelineStep env stream) (.init (.ofBytes (requests.flatMap frame) false)) actions
      s)
    (hsendable : ∀ sent ∈ s.world.sent, Sendable (serialize env sent.value))
    (hparse : ∀ sent ∈ s.world.sent,
      env.rapidjson.parse (cstr (serialize env sent.value)) = some sent.value) :
    completed actions <+: requests ∧
      ∃ responses, List.Forall₂ (Answer env) (completed actions) responses ∧
        ∀ interrupted, Run ReadStep (.ofBytes (s.world.output stream) interrupted)
          (responses.flatten.map some) (.ofBytes [] interrupted) := by
  refine ⟨(completed_first hrun).trans (messages_first hrequests (pipeline_reads hrun)), ?_⟩
  obtain ⟨replies, hcaused, hsent⟩ := pipeline_caused hrun rfl
  have hsent' : s.world.sent = replies.flatten := hsent
  have houtput := output_of_caused hcaused hsent'
  rw [hsent'] at hsendable hparse
  refine ⟨replies.map (contentsOf env), answers_of_caused hcaused hparse, fun interrupted => ?_⟩
  have hflatten : (replies.map (contentsOf env)).flatten = contentsOf env replies.flatten :=
    List.map_flatten.symm
  have hframes : (replies.flatten.flatMap fun sent => frame (serialize env sent.value)) =
      (contentsOf env replies.flatten).flatMap frame := by
    rw [contentsOf, List.flatMap_map]
  rw [houtput, hflatten, hframes]
  refine run_framed ?_ interrupted
  intro content hcontent
  obtain ⟨sent, hmem, rfl⟩ := List.mem_map.mp hcontent
  exact hsendable sent hmem

/-- The world of one request, in which the response is parsed as well. -/
def shutdownClient : Environment :=
  { shutdownEnvironment with
    rapidjson :=
      { parse := fun s =>
          if s = shutdownContent then some (plainRequest "shutdown")
          else if s = shutdownResponse then some (responseValue 7 (str "result") .null)
          else none
        write := fun _ => shutdownResponse } }

/-- The reader hands the request over and waits for the next one while its call comes back. -/
def oneCall : List Action :=
  [.check true, .read (some shutdownContent), .io (.post shutdownContent),
    .io (.take shutdownContent), .io (.finish shutdownContent)]

theorem conversation_shutdown :
    ∃ s, Run (PipelineStep shutdownClient 0)
        (.init (.ofBytes ([shutdownContent].flatMap frame) false))
        oneCall s ∧
      ∃ responses, List.Forall₂ (Answer shutdownClient) [shutdownContent] responses ∧
        ∀ interrupted, Run ReadStep (.ofBytes (s.world.output 0) interrupted)
          (responses.flatten.map some) (.ofBytes [] interrupted) := by
  have hsend : 0 < shutdownContent.length ∧ shutdownContent.length ≤ maxLength := by decide
  have hanswer :
      0 < (cstr shutdownResponse).length ∧ (cstr shutdownResponse).length ≤ maxLength := by
    decide
  have hread : ReadStep (.ofBytes ([shutdownContent].flatMap frame) false) (some shutdownContent)
      (.ofBytes [] false) := readStep_frame hsend []
  have hcall : ∃ world, call shutdownClient shutdownContent 0 World.init = .ok world ∧
      world.sent.map Sent.value = [responseValue 7 (str "result") .null] := ⟨_, rfl, rfl⟩
  obtain ⟨world, hcall, hsent⟩ := hcall
  have hrun : ∃ s, Run (PipelineStep shutdownClient 0)
      (.init (.ofBytes ([shutdownContent].flatMap frame) false)) oneCall s ∧ s.world = world :=
    ⟨_, .cons (.enter rfl rfl) <| .cons (.read rfl hread) <| .cons (.post rfl (.post _ _)) <|
      .cons (.take (.take rfl rfl rfl)) <| .cons (.finish (.finish rfl) hcall) <| .nil _, rfl⟩
  obtain ⟨s, hrun, rfl⟩ := hrun
  have hvalue : ∀ sent ∈ s.world.sent, sent.value = responseValue 7 (str "result") .null := by
    intro sent hmem
    exact List.mem_singleton.mp (hsent ▸ List.mem_map_of_mem hmem)
  have hrequests : ∀ request ∈ [shutdownContent], Sendable request :=
    List.forall_mem_singleton.mpr hsend
  have hparse : ∀ sent ∈ s.world.sent, shutdownClient.rapidjson.parse
      (cstr (serialize shutdownClient sent.value)) = some sent.value := by
    intro sent hmem
    rw [hvalue sent hmem]
    rfl
  exact ⟨s, hrun, (conversation hrequests hrun (fun _ _ => hanswer) hparse).2⟩

end P4LS
