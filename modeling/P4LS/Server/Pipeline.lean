import P4LS.Library.WorkQueue
import P4LS.Server.Framing
import P4LS.Server.Ids

/-!
# The reader and the worker

`run` reads messages and posts their handlers to the worker thread, which calls
the dispatcher on them one after another.  The two threads share the flag that
ends the loop, which the handler of `exit` sets as well, and at the end the
reader gives up the work token and waits for the worker.
-/

namespace P4LS

open WorkQueue

/-! ## The two threads -/

/-- Where the reader stands in `run`. -/
inductive Reader where
  | checking
  | reading
  | posting (content : Bytes)
  | stopping
  | resetting
  | joining
  | returned

/-- A message that was read and is not posted yet. -/
def Reader.hand : Reader → List Bytes
  | posting content => [content]
  | _ => []

/-- A message that was not read leads back to the condition of the loop. -/
def Reader.afterRead : Option Bytes → Reader
  | some content => posting content
  | none => checking

structure Pipeline where
  reader : Reader
  input : Input
  io : WorkQueue Bytes
  world : World

/-- The server at the beginning of `run`. -/
def Pipeline.init (input : Input) : Pipeline :=
  { reader := .checking, input := input, io := .init, world := .init }

/-- The condition of the reader's loop. -/
def Pipeline.goesOn (s : Pipeline) : Bool := !s.world.server.isDone && s.input.good

/-- The steps of `run` and of the worker, and the moment at which a call that
ends the session sets the flag. -/
inductive Action where
  | check (goesOn : Bool)
  | read (message : Option Bytes)
  | io (event : Event Bytes)
  | done
  | join
  | exit

/-- The calls of the worker are those that return.  A call shows on the other
thread by the flag alone, which is set before the call comes back. -/
inductive PipelineStep (env : Environment) (stream : OutputStream) :
    Pipeline → Action → Pipeline → Prop where
  | enter {s : Pipeline} (reader : s.reader = .checking) (goesOn : s.goesOn = true) :
      PipelineStep env stream s (.check true) { s with reader := .reading }
  | leave {s : Pipeline} (reader : s.reader = .checking) (goesOn : s.goesOn = false) :
      PipelineStep env stream s (.check false) { s with reader := .stopping }
  | read {s : Pipeline} {message : Option Bytes} {input : Input} (reader : s.reader = .reading)
      (step : ReadStep s.input message input) :
      PipelineStep env stream s (.read message)
        { s with reader := .afterRead message, input := input }
  | post {s : Pipeline} {content : Bytes} {io : WorkQueue Bytes}
      (reader : s.reader = .posting content) (step : Step s.io (.post content) io) :
      PipelineStep env stream s (.io (.post content)) { s with reader := .checking, io := io }
  | done {s : Pipeline} (reader : s.reader = .stopping) :
      PipelineStep env stream s .done { s with reader := .resetting, world := s.world.setDone }
  | reset {s : Pipeline} {io : WorkQueue Bytes} (reader : s.reader = .resetting)
      (step : Step s.io .reset io) :
      PipelineStep env stream s (.io .reset) { s with reader := .joining, io := io }
  | join {s : Pipeline} (reader : s.reader = .joining) (stopped : s.io.stopped = true) :
      PipelineStep env stream s .join { s with reader := .returned }
  | take {s : Pipeline} {content : Bytes} {io : WorkQueue Bytes}
      (step : Step s.io (.take content) io) :
      PipelineStep env stream s (.io (.take content)) { s with io := io }
  | exit {s : Pipeline} {content : Bytes} {world : World}
      (running : s.io.running = some content) (call : call env content stream s.world = .ok world)
      (isDone : world.server.isDone = true) :
      PipelineStep env stream s .exit { s with world := s.world.setDone }
  | finish {s : Pipeline} {content : Bytes} {io : WorkQueue Bytes} {world : World}
      (step : Step s.io (.finish content) io) (call : call env content stream s.world = .ok world) :
      PipelineStep env stream s (.io (.finish content)) { s with io := io, world := world }
  | stop {s : Pipeline} {io : WorkQueue Bytes} (step : Step s.io .stop io) :
      PipelineStep env stream s (.io .stop) { s with io := io }

/-! ## What a run has done -/

def Action.reads : Action → List (Option Bytes)
  | read message => [message]
  | _ => []

def Action.events : Action → List (Event Bytes)
  | io event => [event]
  | _ => []

/-- What the calls of `read_message` gave, in order. -/
def reads (actions : List Action) : List (Option Bytes) := actions.flatMap Action.reads

/-- What happened to the queue, in order. -/
def events (actions : List Action) : List (Event Bytes) := actions.flatMap Action.events

/-- The messages that were read, in order. -/
def messages (actions : List Action) : List Bytes := (reads actions).reduceOption

/-- The messages that the worker took for a call of the dispatcher, in order. -/
def dispatched (actions : List Action) : List Bytes := taken (events actions)

/-- The messages whose calls have returned, in order. -/
def completed (actions : List Action) : List Bytes := finished (events actions)

/-- The bytes on an output stream. -/
def World.output (world : World) (stream : OutputStream) : Bytes :=
  (world.sent.filter fun sent => sent.stream == stream).flatMap Sent.message

variable {env : Environment} {stream : OutputStream} {input : Input} {s s' : Pipeline}
  {action : Action} {actions : List Action}

/-! ## Reading and posting -/

/-- What a step does to the queue is a step of the queue, if anything. -/
theorem PipelineStep.io_run (h : PipelineStep env stream s action s') :
    Run Step s.io action.events s'.io := by
  cases h with
  | post _ step => exact .cons step (.nil _)
  | reset _ step => exact .cons step (.nil _)
  | take step => exact .cons step (.nil _)
  | finish step _ => exact .cons step (.nil _)
  | stop step => exact .cons step (.nil _)
  | _ => exact .nil _

theorem PipelineStep.read_run (h : PipelineStep env stream s action s') :
    Run ReadStep s.input action.reads s'.input := by
  cases h with
  | read _ step => exact .cons step (.nil _)
  | _ => exact .nil _

theorem PipelineStep.posts_append_hand (h : PipelineStep env stream s action s') :
    posted action.events ++ s'.reader.hand = s.reader.hand ++ action.reads.reduceOption := by
  cases h with
  | @read message _ hreader _ =>
    rw [hreader]
    cases message <;> rfl
  | enter hreader _ => rw [hreader]; rfl
  | leave hreader _ => rw [hreader]; rfl
  | post hreader _ => rw [hreader]; rfl
  | done hreader => rw [hreader]; rfl
  | reset hreader _ => rw [hreader]; rfl
  | join hreader _ => rw [hreader]; rfl
  | take _ => exact (List.append_nil _).symm
  | exit _ _ _ => exact (List.append_nil _).symm
  | finish _ _ => exact (List.append_nil _).symm
  | stop _ => exact (List.append_nil _).symm

theorem pipeline_io (hrun : Run (PipelineStep env stream) s actions s') :
    Run Step s.io (events actions) s'.io :=
  hrun.project fun _ _ _ step => step.io_run

theorem pipeline_reads (hrun : Run (PipelineStep env stream) s actions s') :
    Run ReadStep s.input (reads actions) s'.input :=
  hrun.project fun _ _ _ step => step.read_run

/-- The reader posts what it has read, in order. -/
theorem posted_append_hand (hrun : Run (PipelineStep env stream) s actions s') :
    posted (events actions) ++ s'.reader.hand = s.reader.hand ++ messages actions := by
  have hposted : posted (events actions) = actions.flatMap fun action => posted action.events :=
    List.flatMap_assoc
  have hmessages : messages actions = actions.flatMap fun action => action.reads.reduceOption :=
    List.filterMap_flatMap
  rw [hposted, hmessages]
  exact hrun.conserves fun _ _ _ step => step.posts_append_hand

/-! ## The end of the session -/

/-- The reader gives up the token before it joins the worker. -/
def Reader.holdsToken : Reader → Bool
  | joining | returned => false
  | _ => true

/-- The reader returns behind the worker. -/
structure Orderly (s : Pipeline) : Prop where
  token : s.io.work = s.reader.holdsToken
  settled : s.io.Settled
  returned : s.reader = .returned → s.io.stopped = true

theorem orderly_init : Orderly (.init input) where
  token := rfl
  settled := settled_of_not_stopped rfl
  returned h := by cases h

theorem PipelineStep.token (h : PipelineStep env stream s action s')
    (hs : s.io.work = s.reader.holdsToken) : s'.io.work = s'.reader.holdsToken := by
  cases h with
  | @read message _ hreader _ =>
    rw [hreader] at hs
    cases message <;> exact hs
  | post hreader step =>
    rw [hreader] at hs
    cases step
    exact hs
  | reset _ step =>
    cases step
    rfl
  | take step | finish step _ | stop step =>
    cases step
    exact hs
  | exit _ _ _ => exact hs
  | enter hreader _ | leave hreader _ | done hreader | join hreader _ =>
    rw [hreader] at hs
    exact hs

theorem PipelineStep.settled (h : PipelineStep env stream s action s') (hs : Orderly s) :
    s'.io.Settled := by
  cases h with
  | post hreader step =>
    refine step.settled hs.settled fun _ _ => ?_
    rw [hs.token, hreader]
    rfl
  | reset _ step | take step | finish step _ | stop step =>
    exact step.settled hs.settled fun _ h => by cases h
  | _ => exact hs.settled

theorem PipelineStep.returned (h : PipelineStep env stream s action s') (hs : Orderly s)
    (hreturned : s'.reader = .returned) : s'.io.stopped = true := by
  cases h with
  | @read message _ _ _ => cases message <;> cases hreturned
  | join _ hstopped => exact hstopped
  | take step | finish step _ | stop step => exact step.stopped (hs.returned hreturned)
  | exit _ _ _ => exact hs.returned hreturned
  | _ => cases hreturned

theorem PipelineStep.orderly (h : PipelineStep env stream s action s') (hs : Orderly s) :
    Orderly s' := ⟨h.token hs.token, h.settled hs, h.returned hs⟩

theorem orderly_run (hrun : Run (PipelineStep env stream) (.init input) actions s) : Orderly s :=
  hrun.invariant (I := Orderly) (fun _ _ _ hs step => step.orderly hs) orderly_init

/-! ## Dispatching -/

theorem completed_cons (action : Action) (actions : List Action) :
    completed (action :: actions) = finished action.events ++ completed actions := by
  simp [completed, events, finished]

/-- A call that comes back writes what its message causes, and nothing else
writes. -/
theorem PipelineStep.caused (h : PipelineStep env stream s action s')
    (hcontext : s.world.context = []) :
    s'.world.context = [] ∧ ∃ replies,
      List.Forall₂ (Caused env stream) (finished action.events) replies ∧
        s'.world.sent = s.world.sent ++ replies.flatten := by
  cases h with
  | finish _ hcall =>
    have hnone : s.world.context.requestId = none := by
      rw [hcontext]
      rfl
    obtain ⟨replies, hsent, hcaused⟩ := call_caused hnone hcall
    refine ⟨(call_context hcall).trans hcontext, [replies], .cons hcaused .nil, ?_⟩
    rw [List.flatten_singleton]
    exact hsent
  | _ => exact ⟨hcontext, [], .nil, (List.append_nil _).symm⟩

theorem pipeline_caused (hrun : Run (PipelineStep env stream) s actions s')
    (hcontext : s.world.context = []) :
    ∃ replies, List.Forall₂ (Caused env stream) (completed actions) replies ∧
      s'.world.sent = s.world.sent ++ replies.flatten := by
  induction hrun with
  | nil s => exact ⟨[], .nil, (List.append_nil _).symm⟩
  | cons step _ ih =>
    obtain ⟨hcontext', first, hfirst, hsent⟩ := step.caused hcontext
    obtain ⟨rest, hrest, hsent'⟩ := ih hcontext'
    refine ⟨first ++ rest, ?_, ?_⟩
    · rw [completed_cons]
      exact List.rel_append hfirst hrest
    · rw [hsent', hsent, List.append_assoc, List.flatten_append]

theorem responds_of_caused {contents : List Bytes} {replies : List (List Sent)}
    (h : List.Forall₂ (Caused env stream) contents replies) :
    ∀ sent ∈ replies.flatten, ∃ id, RespondsTo env stream id sent := by
  induction h with
  | nil => exact fun _ hmem => absurd hmem List.not_mem_nil
  | cons hcaused _ ih =>
    intro sent hmem
    rcases List.mem_append.mp hmem with hmem | hmem
    · obtain ⟨id, _, hid⟩ := hcaused.responds sent hmem
      exact ⟨id, hid⟩
    · exact ih sent hmem

/-- What was caused on a stream are whole frames on that stream. -/
theorem output_of_caused {contents : List Bytes} {replies : List (List Sent)} {world : World}
    (hcaused : List.Forall₂ (Caused env stream) contents replies)
    (hsent : world.sent = replies.flatten) :
    world.output stream =
      replies.flatten.flatMap fun sent => frame (serialize env sent.value) := by
  have hall : ∀ sent ∈ replies.flatten, (sent.stream == stream) = true := by
    intro sent hmem
    obtain ⟨id, hid⟩ := responds_of_caused hcaused sent hmem
    exact beq_iff_eq.mpr hid.stream
  have hmessage : ∀ sent ∈ replies.flatten, sent.message = frame (serialize env sent.value) := by
    intro sent hmem
    obtain ⟨id, hid⟩ := responds_of_caused hcaused sent hmem
    exact hid.message
  rw [World.output, hsent, List.filter_eq_self.mpr hall]
  exact List.flatMap_congr hmessage

/-- Nothing is lost, duplicated or reordered.  In every state of every run the
messages taken for a call, the ones in the queue and the one in the reader's hand
are the messages read; when `run` returns, each of them has been dispatched and
its call has returned; and the output is made of whole frames, grouped by the
messages that caused them. -/
theorem pipeline_exact (hrun : Run (PipelineStep env stream) (.init input) actions s) :
    Run ReadStep input (reads actions) s.input ∧
      dispatched actions ++ s.io.queue ++ s.reader.hand = messages actions ∧
      completed actions ++ s.io.running.toList = dispatched actions ∧
      (s.reader = .returned →
        dispatched actions = messages actions ∧ completed actions = messages actions) ∧
      ∃ replies, List.Forall₂ (Caused env stream) (completed actions) replies ∧
        s.world.output stream =
          replies.flatten.flatMap fun sent => frame (serialize env sent.value) := by
  have hio := pipeline_io hrun
  have hqueue : dispatched actions ++ s.io.queue = posted (events actions) :=
    taken_append_queue hio
  have hposted : posted (events actions) ++ s.reader.hand = messages actions :=
    posted_append_hand hrun
  have hrunning : completed actions ++ s.io.running.toList = dispatched actions :=
    finished_append_running hio
  have hmessages : dispatched actions ++ s.io.queue ++ s.reader.hand = messages actions := by
    rw [hqueue, hposted]
  refine ⟨pipeline_reads hrun, hmessages, hrunning, fun hreturned => ?_, ?_⟩
  · have horderly := orderly_run hrun
    have hstopped := horderly.returned hreturned
    rw [horderly.settled.queue hstopped, hreturned] at hmessages
    rw [horderly.settled.running hstopped] at hrunning
    have hdispatched : dispatched actions = messages actions := by
      simpa [Reader.hand] using hmessages
    refine ⟨hdispatched, ?_⟩
    rw [← hdispatched, ← hrunning]
    exact (List.append_nil _).symm
  · obtain ⟨replies, hcaused, hsent⟩ := pipeline_caused hrun rfl
    exact ⟨replies, hcaused, output_of_caused hcaused hsent⟩

/-- One request, whose call begins and comes back while the reader meets the end
of the input. -/
def shutdownSession : List Action :=
  [.check true, .read (some shutdownContent), .io (.post shutdownContent),
    .io (.take shutdownContent), .check true, .read none, .io (.finish shutdownContent),
    .check false, .done, .io .reset, .io .stop, .join]

theorem readStep_frame {content : Bytes} {interrupted : Bool}
    (h : 0 < content.length ∧ content.length ≤ maxLength) (rest : Bytes) :
    ReadStep (.ofBytes (frame content ++ rest) interrupted) (some content)
      (.ofBytes rest interrupted) := by
  have hbounded : content.length < 2 ^ 63 - 1 := by
    unfold maxLength at h
    omega
  have hstep : ReadStep (.ofBytes ((Frame.ofContent content hbounded).bytes ++ rest) interrupted)
      (Frame.ofContent content hbounded).message (.ofBytes rest interrupted) :=
    Frame.readStep _ rest
  rw [← frame_eq, Frame.message_ofContent hbounded h] at hstep
  exact hstep

theorem pipeline_exact_shutdown :
    ∃ s, Run (PipelineStep shutdownEnvironment 0)
        (.init (.ofBytes (frame shutdownContent) false)) shutdownSession s ∧
      s.reader = .returned ∧ completed shutdownSession = [shutdownContent] := by
  have hread : ReadStep (.ofBytes (frame shutdownContent) false) (some shutdownContent)
      (.ofBytes [] false) := by
    rw [← List.append_nil (frame shutdownContent)]
    exact readStep_frame (by decide) []
  have hend : ∃ input, ReadStep (.ofBytes [] false) none input ∧ input.good = false :=
    ⟨_, ⟨1, rfl⟩, rfl⟩
  have hcall : ∃ world, call shutdownEnvironment shutdownContent 0 World.init = .ok world ∧
      world.server.isDone = false := ⟨_, rfl, rfl⟩
  obtain ⟨input, hend, hgood⟩ := hend
  obtain ⟨world, hcall, hdone⟩ := hcall
  have hrun : ∃ s, Run (PipelineStep shutdownEnvironment 0)
      (.init (.ofBytes (frame shutdownContent) false)) shutdownSession s ∧ s.reader = .returned :=
    ⟨_, .cons (.enter rfl rfl) <| .cons (.read rfl hread) <| .cons (.post rfl (.post _ _)) <|
      .cons (.take (.take rfl rfl rfl)) <| .cons (.enter rfl rfl) <| .cons (.read rfl hend) <|
      .cons (.finish (.finish rfl) hcall) <|
      .cons (.leave rfl (by simp [Pipeline.goesOn, hgood])) <| .cons (.done rfl) <| .cons (.reset rfl (.reset _)) <| .cons (.stop (.stop rfl rfl rfl)) <|
      .cons (.join rfl rfl) <| .nil _, rfl⟩
  obtain ⟨s, hrun, hreturned⟩ := hrun
  exact ⟨s, hrun, hreturned, ((pipeline_exact hrun).2.2.2.1 hreturned).2⟩

/-! ## Progress -/

/-- The server gets on in every state in which the next message can be read and
the running call returns, until `run` returns. -/
theorem pipeline_progress (hrun : Run (PipelineStep env stream) (.init input) actions s)
    (hread : ∃ message input', ReadStep s.input message input')
    (hcall : ∀ content, s.io.running = some content →
      (call env content stream s.world).Returns)
    (hreturned : s.reader ≠ .returned) :
    ∃ action s', PipelineStep env stream s action s' := by
  cases hreader : s.reader with
  | checking =>
    cases hgoesOn : s.goesOn with
    | true => exact ⟨_, _, .enter hreader hgoesOn⟩
    | false => exact ⟨_, _, .leave hreader hgoesOn⟩
  | reading =>
    obtain ⟨message, input', hstep⟩ := hread
    exact ⟨_, _, .read hreader hstep⟩
  | posting content => exact ⟨_, _, .post hreader (.post _ content)⟩
  | stopping => exact ⟨_, _, .done hreader⟩
  | resetting => exact ⟨_, _, .reset hreader (.reset _)⟩
  | returned => exact absurd hreader hreturned
  | joining =>
    -- The token is gone: the worker ends, or it has something left to do.
    have hwork : s.io.work = false := by
      rw [(orderly_run hrun).token, hreader]
      rfl
    cases hstopped : s.io.stopped with
    | true => exact ⟨_, _, .join hreader hstopped⟩
    | false =>
      cases hrunning : s.io.running with
      | some content =>
        obtain ⟨world, hworld⟩ := hcall content hrunning
        exact ⟨_, _, .finish (.finish hrunning) hworld⟩
      | none =>
        cases hqueue : s.io.queue with
        | nil => exact ⟨_, _, .stop (.stop hwork hqueue hrunning)⟩
        | cons content rest => exact ⟨_, _, .take (.take hstopped hrunning hqueue)⟩

end P4LS
