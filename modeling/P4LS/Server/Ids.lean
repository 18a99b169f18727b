import P4LS.Library.Run
import P4LS.Server.Dispatcher

/-!
# Request ids

A reply finds its id and its stream in the context of the thread.  Over any
sequence of calls the context is empty between two calls, so a reply can only
find what the call it belongs to has put there.
-/

namespace P4LS

open Bytes Json

/-- One call that returns, on a content and an output stream. -/
def CallStep (env : Environment) (world : World) (message : Bytes × OutputStream)
    (world' : World) : Prop :=
  call env message.1 message.2 world = .ok world'

/-- The `id` member of a content that parses. -/
def messageId (env : Environment) (content : Bytes) : Option Json :=
  (env.rapidjson.parse (cstr content)).bind (·.get? (str "id"))

/-- A response with an id, on a stream, in the form `send` writes it. -/
structure RespondsTo (env : Environment) (stream : OutputStream) (id : Int) (sent : Sent) :
    Prop where
  stream : sent.stream = stream
  id : sent.value.get? (str "id") = some (.int id)
  message : sent.message = frame (serialize env sent.value)

variable {env : Environment}

theorem responseValue_id (id : Int) (field : Bytes) (result : Json) :
    (responseValue id field result).get? (str "id") = some (.int id) := by
  have hne : (str "id" == str "jsonrpc") = false := by decide
  rw [responseValue, get?_object, List.lookup_cons, hne, List.lookup_cons, beq_self_eq_true]

theorem written_respondsTo {context : ThreadContext} {stream : OutputStream} {id : Int}
    (hid : context.requestId = some id) (hstream : context.requestOutputStream = some stream)
    (answer : Bytes × Json) :
    ∀ sent ∈ written env context answer, RespondsTo env stream id sent := by
  intro sent hsent
  rw [written, hid, hstream] at hsent
  rw [List.mem_singleton.mp hsent]
  exact ⟨rfl, responseValue_id id answer.1 answer.2, rfl⟩

theorem written_without_id {context : ThreadContext} (hid : context.requestId = none)
    (answer : Bytes × Json) : written env context answer = [] := by
  rw [written, hid]

/-- A call leaves the context as it found it. -/
theorem call_context {content : Bytes} {stream : OutputStream} {world world' : World}
    (h : call env content stream world = .ok world') : world'.context = world.context := by
  unfold call at h
  cases hparse : env.rapidjson.parse (cstr content) with
  | none =>
    rw [hparse] at h
    cases h
    rfl
  | some msg =>
    rw [hparse] at h
    rcases handleMessage_answers h with rfl | ⟨_, _, _, _, _, hcontext, _⟩
    · rfl
    · exact hcontext

theorem run_context {start world : World} {messages : List (Bytes × OutputStream)}
    (hrun : Run (CallStep env) start messages world) (hstart : start.context = []) :
    world.context = [] :=
  hrun.invariant (I := fun world => world.context = [])
    (fun _ _ _ hempty hstep => (call_context hstep).trans hempty) hstart

/-- The responses a message has caused: at most one, with the message's id. -/
structure Caused (env : Environment) (stream : OutputStream) (content : Bytes)
    (replies : List Sent) : Prop where
  atMostOne : replies.length ≤ 1
  responds : ∀ sent ∈ replies, ∃ id, readOptionalId (messageId env content) = .ok (some id) ∧
    RespondsTo env stream id sent

theorem Caused.nil (stream : OutputStream) (content : Bytes) : Caused env stream content [] where
  atMostOne := Nat.zero_le 1
  responds _ hmem := absurd hmem List.not_mem_nil

theorem length_written_le (context : ThreadContext) {answers : List (Bytes × Json)}
    (h : AtMostOne answers) : (answers.flatMap (written env context)).length ≤ 1 := by
  have hone : ∀ answer, (written env context answer).length ≤ 1 := by
    intro answer
    unfold written
    split
    · exact Nat.le_refl 1
    · exact Nat.zero_le 1
  cases h with
  | silent => exact Nat.zero_le 1
  | result result =>
    rw [List.flatMap_singleton]
    exact hone _
  | error error =>
    rw [List.flatMap_singleton]
    exact hone _

/-- Without a request id in the context a call writes what its own message
causes. -/
theorem call_caused {content : Bytes} {stream : OutputStream} {world world' : World}
    (hcontext : world.context.requestId = none)
    (h : call env content stream world = .ok world') :
    ∃ replies, world'.sent = world.sent ++ replies ∧ Caused env stream content replies := by
  unfold call at h
  cases hparse : env.rapidjson.parse (cstr content) with
  | none =>
    rw [hparse] at h
    cases h
    exact ⟨[], (List.append_nil _).symm, .nil stream content⟩
  | some msg =>
    rw [hparse] at h
    rcases handleMessage_answers h with rfl | ⟨id, _, answers, hmsg, hone, _, hsent⟩
    · exact ⟨[], (List.append_nil _).symm, .nil stream content⟩
    · refine ⟨_, hsent, length_written_le _ hone, fun sent hmem => ?_⟩
      obtain ⟨answer, _, hwritten⟩ := List.mem_flatMap.mp hmem
      cases id with
      | none =>
        have hnone : written env (handlerContext stream none world.context) answer = [] :=
          written_without_id ((handlerContext_no_id stream world.context).trans hcontext) answer
        rw [hnone] at hwritten
        exact absurd hwritten List.not_mem_nil
      | some n =>
        have hid : readOptionalId (messageId env content) = .ok (some n) := by
          rw [messageId, hparse]
          exact hmsg.id
        exact ⟨n, hid, written_respondsTo (handlerContext_id stream n world.context)
          (handlerContext_stream stream (some n) world.context) answer sent hwritten⟩

/-- Ids stay with their messages: whatever calls have returned before on a
thread that started with an empty context, a message without an id writes
nothing, every response to a message with the id `n` carries `n` on the stream
of its call, and the context after the call is the one before it. -/
theorem ids_confined {start world world' : World} {earlier : List (Bytes × OutputStream)}
    {content : Bytes} {stream : OutputStream} (hstart : start.context = [])
    (hearlier : Run (CallStep env) start earlier world)
    (hcall : call env content stream world = .ok world') :
    (messageId env content = none → world'.sent = world.sent) ∧
      (∀ n : Int, messageId env content = some (.int n) →
        ∃ new, world'.sent = world.sent ++ new ∧ ∀ sent ∈ new, RespondsTo env stream n sent) ∧
      world'.context = world.context := by
  have hnone : world.context.requestId = none := by
    rw [run_context hearlier hstart]
    rfl
  obtain ⟨replies, hsent, hcaused⟩ := call_caused hnone hcall
  refine ⟨fun hid => ?_, fun n hid => ⟨replies, hsent, fun sent hmem => ?_⟩, call_context hcall⟩
  · have hnil : replies = [] := by
      apply List.eq_nil_iff_forall_not_mem.mpr
      intro sent hmem
      obtain ⟨id, hread, _⟩ := hcaused.responds sent hmem
      rw [hid] at hread
      cases hread
    rw [hsent, hnil, List.append_nil]
  · obtain ⟨id, hread, hresponds⟩ := hcaused.responds sent hmem
    rw [hid] at hread
    obtain ⟨hn, _⟩ := readOptionalId_int.mp hread
    cases hn
    exact hresponds

/-- A request with the id 7 and an empty object for parameters. -/
def plainRequest (method : String) : Json :=
  .object [(str "jsonrpc", .string (str "2.0")), (str "id", .int 7),
    (str "method", .string (str method)), (str "params", .object [])]

/-- The bytes of a `shutdown` request. -/
def shutdownContent : Bytes :=
  str "\x7b\"jsonrpc\":\"2.0\",\"id\":7,\"method\":\"shutdown\",\"params\":\x7b\x7d\x7d"

def shutdownResponse : Bytes := str "\x7b\"jsonrpc\":\"2.0\",\"id\":7,\"result\":null\x7d"

def shutdownEnvironment : Environment :=
  .ofMessage shutdownContent (plainRequest "shutdown") shutdownResponse

/-- The same request on two streams. -/
theorem ids_confined_shutdown :
    ∃ world world' new, call shutdownEnvironment shutdownContent 0 World.init = .ok world ∧
      call shutdownEnvironment shutdownContent 1 world = .ok world' ∧
      world'.sent = world.sent ++ new ∧
      ∀ sent ∈ new, RespondsTo shutdownEnvironment 1 7 sent := by
  have hfirst : ∃ world, call shutdownEnvironment shutdownContent 0 World.init = .ok world :=
    ⟨_, rfl⟩
  obtain ⟨world, hworld⟩ := hfirst
  have hsecond : ∃ world', call shutdownEnvironment shutdownContent 1 world = .ok world' := by
    cases hworld
    exact ⟨_, rfl⟩
  obtain ⟨world', hworld'⟩ := hsecond
  have hearlier : Run (CallStep shutdownEnvironment) World.init [(shutdownContent, 0)] world :=
    .cons hworld (.nil world)
  obtain ⟨new, hnew, hresponds⟩ := (ids_confined rfl hearlier hworld').2.1 7 rfl
  exact ⟨world, world', new, hworld, hworld', hnew, hresponds⟩

end P4LS
