import P4LS.Server.Pipeline

/-!
# After exit

The handler of `exit` sets the flag that ends the reader's loop.  The worker does
not look at the flag: it goes on with the messages that are posted already, and
the reader posts one more message if it is inside `read_message`.
-/

namespace P4LS

open Bytes Json WorkQueue

/-! ## What a message executes -/

def Accepted {α : Type} (setParams : Json → Decoder α) (json : Json) : Prop :=
  ∃ params, (setParams json).run = .ok (some params)

/-- The handler of the method is called with these parameters. -/
def Method.Accepts : Method → Json → Prop
  | initialize_ => Accepted ParamsInitialize.set
  | didChange => Accepted ParamsTextDocumentDidChange.set
  | didOpen => Accepted ParamsTextDocumentDidOpen.set
  | didSave => Accepted ParamsTextDocumentDidSave.set
  | documentSymbol => Accepted ParamsTextDocumentDocumentSymbol.set
  | definition | documentHighlight | hover | implementation | signatureHelp | typeDefinition =>
    Accepted ParamsTextDocumentPosition.set
  | exit | shutdown | codeAction | codeLens | codeLensResolve | completion | didClose | formatting
  | onTypeFormatting | rangeFormatting | rename | switchSourceHeader | didChangeConfiguration
  | didChangeWatchedFiles | executeCommand => Accepted noParams

/-- A call on this message executes the handler of the method. -/
def Executes (env : Environment) (content : Bytes) (method : Method) : Prop :=
  ∃ msg id params, env.rapidjson.parse (cstr content) = some msg ∧
    Dispatched msg id (str method.name) ∧
    readParams (msg.get? (str "params")) = .ok params ∧ method.Accepts params

/-- A call on this message executes no handler and has nothing to answer. -/
structure Idle (env : Environment) (content : Bytes) : Prop where
  handler : ∀ method, ¬ Executes env content method
  answer : ∀ msg id method, env.rapidjson.parse (cstr content) = some msg →
    Dispatched msg id method → Unregistered method → id = none

variable {env : Environment} {stream : OutputStream} {content : Bytes} {world world' : World}

theorem registered_accepted {α : Type} {setParams : Json → Decoder α}
    {handler : α → World → Except Fault World} {json : Json}
    (h : registered setParams handler json world = .ok world') :
    Accepted setParams json ∨ world' = world := by
  rcases registered_eq_ok.mp h with ⟨params, hparams, _⟩ | ⟨_, hworld⟩
  · exact .inl ⟨params, hparams⟩
  · exact .inr hworld

theorem Method.accepts_or_eq {method : Method} {json : Json}
    (h : method.handler env json world = .ok world') : method.Accepts json ∨ world' = world := by
  cases method <;> exact registered_accepted h

/-- A call on an idle message leaves the world as it is. -/
theorem Idle.call_eq (hidle : Idle env content) (hcontext : world.context = [])
    (h : call env content stream world = .ok world') : world' = world := by
  unfold call at h
  cases hparse : env.rapidjson.parse (cstr content) with
  | none =>
    rw [hparse] at h
    exact (Except.ok.inj h).symm
  | some msg =>
    rw [hparse] at h
    dsimp only at h
    rcases handleMessage_cases h with hworld | ⟨id, method, hmsg⟩
    · exact hworld
    · rw [hmsg.handleMessage_eq] at h
      obtain ⟨inner, hinner, rfl⟩ := withOptionalId_eq_ok.mp h
      rcases registered_or_unregistered method with ⟨m, rfl⟩ | hnone
      · rw [invoke_registered] at hinner
        obtain ⟨it, hit, hinner⟩ := Except.bind_eq_ok.mp hinner
        obtain ⟨params, hparams, hinner⟩ := Except.bind_eq_ok.mp hinner
        rcases m.accepts_or_eq hinner with haccepts | hworld
        · rw [(findMember_eq_ok.mp (checked_eq_ok.mp hit)).2] at hparams
          exact absurd ⟨msg, id, params, hparse, hmsg, hparams, haccepts⟩ (hidle.handler m)
        · rw [hworld]
      · have hid := hidle.answer msg id method hparse hmsg hnone
        subst hid
        rw [invoke_unregistered hnone] at hinner
        have hrequest : (handlerContext stream none world.context).requestId = none := by
          rw [handlerContext_no_id, hcontext]
          rfl
        have hsend : errorHandler env (.object [])
            { world with context := handlerContext stream none world.context } =
            .ok { world with context := handlerContext stream none world.context } := by
          show send _ _ _ _ = _
          rw [send]
          dsimp only
          rw [hrequest]
        rw [hsend] at hinner
        cases hinner
        rfl

/-- A call that executes the handler of `exit` sets the flag and writes nothing. -/
theorem call_exit (hexit : Executes env content .exit)
    (h : call env content stream world = .ok world') :
    world'.server.isDone = true ∧ world'.sent = world.sent ∧ world'.context = world.context := by
  obtain ⟨msg, id, params, hparse, hmsg, _, _⟩ := hexit
  rw [call, hparse] at h
  dsimp only at h
  rw [hmsg.handleMessage_eq] at h
  obtain ⟨inner, hinner, rfl⟩ := withOptionalId_eq_ok.mp h
  rw [invoke_registered] at hinner
  obtain ⟨_, _, hinner⟩ := Except.bind_eq_ok.mp hinner
  obtain ⟨_, _, hinner⟩ := Except.bind_eq_ok.mp hinner
  rcases registered_eq_ok.mp hinner with ⟨_, _, hexit⟩ | ⟨hnone, _⟩
  · cases hexit
    exact ⟨rfl, rfl, rfl⟩
  · cases hnone

/-! ## The moment of exit -/

/-- The step in which the running handler of `exit` sets the flag, or its call comes back. -/
def ExecutesExit (env : Environment) (s : Pipeline) : Action → Prop
  | .exit => ∃ content, s.io.running = some content ∧ Executes env content .exit
  | .io (.finish content) => Executes env content .exit
  | _ => False

/-- Nothing is left for the worker to execute or to answer: not in the queue, not in the reader's
hand, and not in what the reader reads before it looks at the flag. -/
structure Drained (env : Environment) (s : Pipeline) : Prop where
  queue : ∀ content ∈ s.io.queue, Idle env content
  hand : ∀ content ∈ s.reader.hand, Idle env content
  reading : s.reader = .reading → ∀ content input, ReadStep s.input (some content) input →
    Idle env content

/-- The flag is set, and the running call is that of `exit` if it is not idle. -/
structure AfterExit (env : Environment) (s : Pipeline) : Prop where
  drained : Drained env s
  isDone : s.world.server.isDone = true
  context : s.world.context = []
  running : ∀ content, s.io.running = some content → Idle env content ∨ Executes env content .exit

variable {input : Input} {s s' last : Pipeline} {action : Action} {earlier later : List Action}

theorem AfterExit.not_goesOn (hs : AfterExit env s) : s.goesOn = false := by
  rw [Pipeline.goesOn, hs.isDone]
  rfl

/-- A call after exit sets the flag again, if anything, and writes nothing. -/
theorem AfterExit.call (hs : AfterExit env s) (hrunning : s.io.running = some content)
    (h : call env content stream s.world = .ok world') :
    world'.server.isDone = true ∧ world'.sent = s.world.sent ∧ world'.context = [] := by
  rcases hs.running content hrunning with hidle | hexit
  · rw [hidle.call_eq hs.context h]
    exact ⟨hs.isDone, rfl, hs.context⟩
  · obtain ⟨hdone, hsent, hcontext⟩ := call_exit hexit h
    exact ⟨hdone, hsent, hcontext.trans hs.context⟩

theorem Drained.of_reader (hs : Drained env s) (hqueue : s'.io.queue = s.io.queue)
    (hhand : s'.reader.hand = []) (hreading : s'.reader ≠ .reading) : Drained env s' where
  queue := by
    rw [hqueue]
    exact hs.queue
  hand := by
    rw [hhand]
    exact fun _ hmem => absurd hmem List.not_mem_nil
  reading h := absurd h hreading

theorem Drained.same (hs : Drained env s) (hqueue : s'.io.queue = s.io.queue)
    (hreader : s'.reader = s.reader) (hinput : s'.input = s.input) : Drained env s' := by
  obtain ⟨hq, hh, hr⟩ := hs
  rw [← hqueue] at hq
  rw [← hreader] at hh hr
  rw [← hinput] at hr
  exact ⟨hq, hh, hr⟩

/-- What a step does after exit: what is taken is idle, and nothing is written. -/
theorem AfterExit.step (hs : AfterExit env s) (h : PipelineStep env stream s action s') :
    AfterExit env s' ∧ (∀ content ∈ taken action.events, Idle env content) ∧
      s'.world.sent = s.world.sent := by
  have hnone : ∀ content ∈ ([] : List Bytes), Idle env content :=
    fun _ hmem => absurd hmem List.not_mem_nil
  cases h with
  | enter _ hgoesOn => exact absurd (hs.not_goesOn.symm.trans hgoesOn) Bool.false_ne_true
  | leave _ _ =>
    exact ⟨⟨hs.drained.of_reader rfl rfl (by simp), hs.isDone, hs.context, hs.running⟩, hnone, rfl⟩
  | @read message input' hreader hstep =>
    refine ⟨⟨⟨hs.drained.queue, ?_, ?_⟩, hs.isDone, hs.context, hs.running⟩, hnone, rfl⟩
    · cases message with
      | none => exact hnone
      | some content =>
        intro content' hmem
        rw [List.mem_singleton.mp hmem]
        exact hs.drained.reading hreader content input' hstep
    · cases message <;> exact fun h => by cases h
  | @post content _ hreader hstep =>
    cases hstep
    refine ⟨⟨⟨?_, hnone, fun h => by cases h⟩, hs.isDone, hs.context, hs.running⟩, hnone, rfl⟩
    intro content' hmem
    rcases List.mem_append.mp hmem with hmem | hmem
    · exact hs.drained.queue content' hmem
    · refine hs.drained.hand content' ?_
      rw [hreader]
      exact hmem
  | done _ =>
    exact ⟨⟨hs.drained.of_reader rfl rfl (by simp), rfl, hs.context, hs.running⟩, hnone, rfl⟩
  | reset _ hstep =>
    cases hstep
    exact ⟨⟨hs.drained.of_reader rfl rfl (by simp), hs.isDone, hs.context, hs.running⟩, hnone, rfl⟩
  | join _ _ =>
    exact ⟨⟨hs.drained.of_reader rfl rfl (by simp), hs.isDone, hs.context, hs.running⟩, hnone, rfl⟩
  | @take content _ hstep =>
    cases hstep with
    | @take _ rest _ _ hqueue =>
      have hidle : Idle env content := hs.drained.queue content (by
        rw [hqueue]
        exact List.mem_cons_self)
      have hrest : ∀ content' ∈ rest, Idle env content' := fun content' hmem =>
        hs.drained.queue content' (by
          rw [hqueue]
          exact List.mem_cons_of_mem content hmem)
      refine ⟨⟨⟨hrest, hs.drained.hand, hs.drained.reading⟩, hs.isDone, hs.context, ?_⟩, ?_, rfl⟩
      · rintro _ ⟨⟩
        exact .inl hidle
      · intro content' hmem
        rw [List.mem_singleton.mp hmem]
        exact hidle
  | exit _ _ _ => exact ⟨⟨hs.drained.same rfl rfl rfl, rfl, hs.context, hs.running⟩, hnone, rfl⟩
  | finish hstep hcall =>
    cases hstep with
    | finish hrunning =>
      obtain ⟨hdone, hsent, hcontext⟩ := hs.call hrunning hcall
      exact ⟨⟨hs.drained.same rfl rfl rfl, hdone, hcontext, fun _ h => by cases h⟩, hnone, hsent⟩
  | stop hstep =>
    cases hstep
    exact ⟨⟨hs.drained.same rfl rfl rfl, hs.isDone, hs.context, hs.running⟩, hnone, rfl⟩

theorem dispatched_cons (action : Action) (actions : List Action) :
    dispatched (action :: actions) = taken action.events ++ dispatched actions := by
  simp [dispatched, events, taken]

theorem AfterExit.run (hrun : Run (PipelineStep env stream) s later last) (hs : AfterExit env s) :
    (∀ content ∈ dispatched later, Idle env content) ∧ last.world.sent = s.world.sent := by
  induction hrun with
  | nil s => exact ⟨fun _ hmem => absurd hmem List.not_mem_nil, rfl⟩
  | cons step _ ih =>
    obtain ⟨hs', htaken, hsent⟩ := hs.step step
    obtain ⟨hrest, hlast⟩ := ih hs'
    refine ⟨?_, hlast.trans hsent⟩
    rw [dispatched_cons]
    exact List.forall_mem_append.mpr ⟨htaken, hrest⟩

/-- The step that executes `exit` writes nothing, and only idle messages are left behind it. -/
theorem ExecutesExit.afterExit (hexit : ExecutesExit env s action) (hdrained : Drained env s)
    (hcontext : s.world.context = []) (hstep : PipelineStep env stream s action s') :
    AfterExit env s' ∧ s'.world.sent = s.world.sent := by
  cases hstep with
  | exit hrunning _ _ =>
    obtain ⟨content, hcontent, hexecutes⟩ := hexit
    refine ⟨⟨hdrained.same rfl rfl rfl, rfl, hcontext, fun content' hcontent' => ?_⟩, rfl⟩
    rw [show s.io.running = some content' from hcontent'] at hcontent
    cases hcontent
    exact .inr hexecutes
  | finish hio hcall =>
    cases hio
    obtain ⟨hdone, hsent, hcontext'⟩ := call_exit hexit hcall
    exact ⟨⟨hdrained.same rfl rfl rfl, hdone, hcontext'.trans hcontext, fun _ h => by cases h⟩,
      hsent⟩
  | _ => exact absurd hexit id

/-- In every run in which `exit` is executed when only idle messages are left, no message that the
worker takes afterwards executes a handler, and nothing is written afterwards. -/
theorem nothing_after_exit (hearlier : Run (PipelineStep env stream) (.init input) earlier s)
    (hdrained : Drained env s) (hstep : PipelineStep env stream s action s')
    (hexit : ExecutesExit env s action) (hlater : Run (PipelineStep env stream) s' later last) :
    (∀ content ∈ dispatched later, ∀ method, ¬ Executes env content method) ∧
      last.world.sent = s.world.sent := by
  have hcontext : s.world.context = [] := hearlier.invariant (I := fun s => s.world.context = [])
    (fun _ _ _ hempty step => (step.caused hempty).1) rfl
  obtain ⟨hafter, hsent⟩ := hexit.afterExit hdrained hcontext hstep
  obtain ⟨hidle, hlast⟩ := hafter.run hlater
  exact ⟨fun content hmem => (hidle content hmem).handler, hlast.trans hsent⟩

/-! ## A request behind exit -/

def exitContent : Bytes := str "\x7b\"jsonrpc\":\"2.0\",\"method\":\"exit\"\x7d"

def exitMessage : Json :=
  .object [(str "jsonrpc", .string (str "2.0")), (str "method", .string (str "exit"))]

/-- A world in which the notification and the `shutdown` request parse. -/
def exitEnvironment : Environment :=
  { shutdownEnvironment with
    rapidjson := { parse := fun s => if s = exitContent then some exitMessage
                     else shutdownEnvironment.rapidjson.parse s,
                   write := shutdownEnvironment.rapidjson.write } }

theorem executes_exit : Executes exitEnvironment exitContent .exit := by
  refine ⟨exitMessage, none, .object [], rfl, ?_, rfl, (), rfl⟩
  exact ⟨⟨_, rfl⟩, by decide, rfl, str "exit", rfl, rfl⟩

/-- The reader is inside `read_message` at the end of the input. -/
def waiting (world : World) (running : Option Bytes) : Pipeline where
  reader := .reading
  input := .ofBytes [] false
  io := { queue := [], running := running, work := true, stopped := false }
  world := world

theorem drained_waiting (world : World) (running : Option Bytes) :
    Drained env (waiting world running) where
  queue _ hmem := absurd hmem List.not_mem_nil
  hand _ hmem := absurd hmem List.not_mem_nil
  reading _ content input' hread := by
    have hend : ReadStep (.ofBytes [] false) none ⟨⟨[], true, true⟩, [], false⟩ := ⟨1, rfl⟩
    cases (hread.deterministic hend).1

theorem run_to_waiting : Run (PipelineStep exitEnvironment 0)
    (.init (.ofBytes (frame exitContent) false))
    [.check true, .read (some exitContent), .io (.post exitContent), .io (.take exitContent),
      .check true] (waiting .init (some exitContent)) := by
  have hread : ReadStep (.ofBytes (frame exitContent) false) (some exitContent)
      (.ofBytes [] false) := by
    rw [← List.append_nil (frame exitContent)]
    exact readStep_frame (by decide) []
  exact .cons (.enter rfl rfl) <| .cons (.read rfl hread) <| .cons (.post rfl (.post _ _)) <|
    .cons (.take (.take rfl rfl rfl)) <| .cons (.enter rfl rfl) <| .nil _

/-- The notification alone, while the reader waits for more. -/
theorem nothing_after_exit_alone :
    ∃ last, Run (PipelineStep exitEnvironment 0)
        (waiting World.init.setDone (some exitContent))
        [.io (.finish exitContent), .read none] last ∧
      last.world.sent = [] := by
  have hend : ReadStep (.ofBytes [] false) none ⟨⟨[], true, true⟩, [], false⟩ := ⟨1, rfl⟩
  have hcall : call exitEnvironment exitContent 0 World.init = .ok World.init.setDone := rfl
  have hcall' :
      call exitEnvironment exitContent 0 World.init.setDone = .ok World.init.setDone := rfl
  have hstep : PipelineStep exitEnvironment 0 (waiting .init (some exitContent)) .exit
      (waiting World.init.setDone (some exitContent)) := .exit rfl hcall rfl
  have hlater : ∃ last, Run (PipelineStep exitEnvironment 0)
      (waiting World.init.setDone (some exitContent))
      [.io (.finish exitContent), .read none] last :=
    ⟨_, .cons (.finish (.finish rfl) hcall') <| .cons (.read rfl hend) <| .nil _⟩
  obtain ⟨last, hlater⟩ := hlater
  exact ⟨last, hlater, (nothing_after_exit run_to_waiting (drained_waiting _ _) hstep
    ⟨exitContent, rfl, executes_exit⟩ hlater).2⟩

theorem executes_shutdown : Executes exitEnvironment shutdownContent .shutdown := by
  refine ⟨plainRequest "shutdown", some 7, .object [], rfl, ?_, rfl, (), rfl⟩
  exact ⟨⟨_, rfl⟩, by decide, rfl, str "shutdown", rfl, rfl⟩

/-- A request that was posted before `exit` is executed is handled and answered after it. -/
theorem shutdown_after_exit :
    ∃ s s' last, Run (PipelineStep exitEnvironment 0)
        (.init (.ofBytes (frame exitContent ++ frame shutdownContent) false))
        [.check true, .read (some exitContent), .io (.post exitContent), .check true,
          .read (some shutdownContent), .io (.post shutdownContent), .io (.take exitContent)] s ∧
      PipelineStep exitEnvironment 0 s .exit s' ∧ ExecutesExit exitEnvironment s .exit ∧
      Run (PipelineStep exitEnvironment 0) s'
        [.io (.finish exitContent), .io (.take shutdownContent), .io (.finish shutdownContent)]
        last ∧
      Executes exitEnvironment shutdownContent .shutdown ∧ s'.world.sent = [] ∧
      last.world.sent.map Sent.message = [frame shutdownResponse] := by
  have hread : ReadStep (.ofBytes (frame exitContent ++ frame shutdownContent) false)
      (some exitContent) (.ofBytes (frame shutdownContent) false) :=
    readStep_frame (by decide) (frame shutdownContent)
  have hread' : ReadStep (.ofBytes (frame shutdownContent) false) (some shutdownContent)
      (.ofBytes [] false) := by
    rw [← List.append_nil (frame shutdownContent)]
    exact readStep_frame (by decide) []
  have hcall : call exitEnvironment exitContent 0 World.init = .ok World.init.setDone := rfl
  have hcall' :
      call exitEnvironment exitContent 0 World.init.setDone = .ok World.init.setDone := rfl
  have hanswer : ∃ world, call exitEnvironment shutdownContent 0 World.init.setDone = .ok world ∧
      world.sent.map Sent.message = [frame shutdownResponse] := ⟨_, rfl, by decide⟩
  obtain ⟨world, hanswer, hsent⟩ := hanswer
  exact ⟨_, _, _, .cons (.enter rfl rfl) <| .cons (.read rfl hread) <|
      .cons (.post rfl (.post _ _)) <| .cons (.enter rfl rfl) <| .cons (.read rfl hread') <|
      .cons (.post rfl (.post _ _)) <| .cons (.take (.take rfl rfl rfl)) <| .nil _,
    .exit rfl hcall rfl, ⟨exitContent, rfl, executes_exit⟩,
    .cons (.finish (.finish rfl) hcall') <| .cons (.take (.take rfl rfl rfl)) <|
      .cons (.finish (.finish rfl) hanswer) <| .nil _,
    executes_shutdown, rfl, hsent⟩

end P4LS
