import P4LS.Server.Requests

/-!
# Echoed ids

A response has to carry the id of its request.  An id that is a number arrives
as it was sent.  One that is a string is converted to a number on the way in,
and the response carries the number.
-/

namespace P4LS

open Bytes Json

/-- The ids of requests: the numbers of the 32-bit `int`, and the strings. -/
def LegalId (id : Json) : Prop := id.IsInt ∨ id.IsString

/-- A call with a request that is answered. -/
structure AnsweredCall (env : Environment) where
  content : Bytes
  msg : Json
  id : Json
  method : Bytes
  stream : OutputStream
  world : World
  parse : env.rapidjson.parse (cstr content) = some msg
  object : msg.IsObject
  version : isVersion (msg.get? (str "jsonrpc")) = true
  hasId : msg.get? (str "id") = some id
  legal : LegalId id
  hasMethod : ∃ s, msg.get? (str "method") = some (.string s) ∧ method = cstr s
  params : ∀ m : Method, method = str m.name → (paramsOf (msg.get? (str "params"))).IsObject
  answered : Answered env world.server method (paramsOf (msg.get? (str "params")))

variable {env : Environment}

/-- The call returns, and this is the only thing it has written. -/
def AnsweredCall.Writes (c : AnsweredCall env) (sent : Sent) : Prop :=
  ∃ world', call env c.content c.stream c.world = .ok world' ∧
    world'.sent = c.world.sent ++ [sent]

/-- The call writes one response, and the response has the id of the request. -/
def AnsweredCall.EchoesId (c : AnsweredCall env) : Prop :=
  ∃ sent, c.Writes sent ∧ sent.value.get? (str "id") = some c.id

theorem readOptionalId_some {value : Json} {id : Option Int} :
    readOptionalId (some value) = .ok id ↔ ∃ n, readId value = .ok n ∧ id = some n := by
  refine Except.bind_eq_ok.trans (exists_congr fun n => and_congr_right' ?_)
  constructor
  · intro h
    exact (Except.ok.inj h).symm
  · intro h
    rw [h]
    rfl

theorem AnsweredCall.dispatched (c : AnsweredCall env) {n : Int} (h : readId c.id = .ok n) :
    Dispatched c.msg (some n) c.method where
  object := c.object
  version := c.version
  id := by
    rw [c.hasId]
    exact readOptionalId_some.mpr ⟨n, h, rfl⟩
  method := c.hasMethod

/-- Whatever a call writes carries the number its id was read as. -/
theorem AnsweredCall.Writes.id_eq {c : AnsweredCall env} {sent : Sent} (h : c.Writes sent) :
    ∃ n, readId c.id = .ok n ∧ sent.value.get? (str "id") = some (.int n) := by
  obtain ⟨world', hcall, hsent⟩ := h
  unfold call at hcall
  rw [c.parse] at hcall
  rcases handleMessage_answers hcall with rfl | ⟨id, _, answers, hmsg, _, _, hwritten⟩
  · exact absurd hsent (by simp)
  · have hid := hmsg.id
    rw [c.hasId] at hid
    obtain ⟨n, hn, rfl⟩ := readOptionalId_some.mp hid
    rw [hsent] at hwritten
    have hmem : sent ∈ answers.flatMap
        (written env (handlerContext c.stream (some n) c.world.context)) := by
      rw [← List.append_cancel_left hwritten]
      exact List.mem_singleton_self sent
    obtain ⟨answer, _, hanswer⟩ := List.mem_flatMap.mp hmem
    exact ⟨n, hn, (written_respondsTo (handlerContext_id c.stream n c.world.context)
      (handlerContext_stream c.stream (some n) c.world.context) answer sent hanswer).id⟩

theorem readId_of_isInt {id : Json} {n : Int} (h : id.IsInt) :
    readId id = .ok n ↔ id = .int n := by
  obtain ⟨m, rfl, hrange⟩ := h
  refine checked_eq_ok.trans (getInt_eq_ok.trans ?_)
  constructor
  · intro hn
    rw [hn.1]
  · intro hn
    cases hn
    exact ⟨rfl, hrange⟩

theorem AnsweredCall.echoesId_iff (c : AnsweredCall env) : c.EchoesId ↔ c.id.IsInt := by
  constructor
  · intro h
    obtain ⟨sent, hwrites, hid⟩ := h
    obtain ⟨n, _, hn⟩ := hwrites.id_eq
    rw [hid] at hn
    refine c.legal.resolve_right fun hstring => ?_
    obtain ⟨s, hs⟩ := hstring
    rw [hs] at hn
    cases hn
  · intro h
    obtain ⟨n, hn⟩ : ∃ n, c.id = .int n := h.imp fun _ hn => hn.1
    have honce : AnsweredOnce env c.content c.stream c.world n :=
      (c.dispatched ((readId_of_isInt h).mpr hn)).answered_once c.parse c.params c.answered
    obtain ⟨world', sent, hcall, hsent, hresponse⟩ := honce
    refine ⟨sent, ⟨world', hcall, hsent⟩, ?_⟩
    rw [hresponse.1.id, hn]

/-- Two requests get their ids back; in particular, different ids do not lead to
responses with one id. -/
structure KeepIds (c c' : AnsweredCall env) : Prop where
  left : c.EchoesId
  right : c'.EchoesId
  apart : c.id ≠ c'.id → ∀ sent sent', c.Writes sent → c'.Writes sent' →
    sent.value.get? (str "id") ≠ sent'.value.get? (str "id")

/-- Requests get their ids back exactly when the ids are numbers. -/
theorem keepIds_iff (c c' : AnsweredCall env) : KeepIds c c' ↔ c.id.IsInt ∧ c'.id.IsInt := by
  constructor
  · intro h
    exact ⟨c.echoesId_iff.mp h.left, c'.echoesId_iff.mp h.right⟩
  · intro h
    refine ⟨c.echoesId_iff.mpr h.1, c'.echoesId_iff.mpr h.2, fun hne sent sent' hw hw' heq => ?_⟩
    obtain ⟨n, hn, hid⟩ := hw.id_eq
    obtain ⟨n', hn', hid'⟩ := hw'.id_eq
    rw [hid, hid'] at heq
    cases heq
    exact hne (((readId_of_isInt h.1).mp hn).trans ((readId_of_isInt h.2).mp hn').symm)

/-- A `shutdown` request with the id `"7"`. -/
def stringRequest : Json :=
  .object [(str "jsonrpc", .string (str "2.0")), (str "id", .string (str "7")),
    (str "method", .string (str "shutdown"))]

def stringContent : Bytes :=
  str "\x7b\"jsonrpc\":\"2.0\",\"id\":\"7\",\"method\":\"shutdown\"\x7d"

def stringCall : AnsweredCall (.ofMessage stringContent stringRequest shutdownResponse) where
  content := stringContent
  msg := stringRequest
  id := .string (str "7")
  method := str "shutdown"
  stream := 0
  world := World.init
  parse := by
    show (if cstr stringContent = stringContent then some stringRequest else none) = _
    rw [if_pos (cstr_eq_self (by decide))]
  object := ⟨_, rfl⟩
  version := rfl
  hasId := rfl
  legal := .inr ⟨_, rfl⟩
  hasMethod := ⟨_, rfl, rfl⟩
  params _ _ := ⟨[], rfl⟩
  answered := .inr ⟨.shutdown, rfl, trivial⟩

/-- The response to the id `"7"` has the id 7. -/
theorem not_echoesId_string :
    (∃ sent, stringCall.Writes sent ∧ sent.value.get? (str "id") = some (.int 7)) ∧
      ¬ stringCall.EchoesId := by
  have hwrites : ∃ sent, stringCall.Writes sent := ⟨_, _, rfl, rfl⟩
  have hread : readId stringCall.id = .ok 7 := by decide
  obtain ⟨sent, hsent⟩ := hwrites
  obtain ⟨n, hn, hid⟩ := hsent.id_eq
  rw [hread] at hn
  cases hn
  refine ⟨⟨sent, hsent, hid⟩, fun h => ?_⟩
  obtain ⟨sent', hsent', hid'⟩ := h
  obtain ⟨n', _, hn'⟩ := hsent'.id_eq
  rw [hid'] at hn'
  cases hn'

end P4LS
