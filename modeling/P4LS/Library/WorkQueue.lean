import P4LS.Library.Run

/-!
# Work queues

A queue of jobs that one thread executes in the order they were posted, one
after another.  The thread stops when the work token is gone, no job is left in
the queue and none is running.
-/

/-- The queue, the job that is running, the work token, and whether the thread
has stopped. -/
structure WorkQueue (α : Type) where
  queue : List α
  running : Option α
  work : Bool
  stopped : Bool

namespace WorkQueue

variable {α : Type}

/-- A queue with its token, before the first job. -/
def init : WorkQueue α := { queue := [], running := none, work := true, stopped := false }

inductive Event (α : Type) where
  | post (job : α)
  | take (job : α)
  | finish (job : α)
  | reset
  | stop

inductive Step : WorkQueue α → Event α → WorkQueue α → Prop where
  | post (q : WorkQueue α) (job : α) :
      Step q (.post job) { q with queue := q.queue ++ [job] }
  | take {q : WorkQueue α} {job : α} {rest : List α} (stopped : q.stopped = false)
      (running : q.running = none) (queue : q.queue = job :: rest) :
      Step q (.take job) { q with queue := rest, running := some job }
  | finish {q : WorkQueue α} {job : α} (running : q.running = some job) :
      Step q (.finish job) { q with running := none }
  | reset (q : WorkQueue α) : Step q .reset { q with work := false }
  | stop {q : WorkQueue α} (work : q.work = false) (queue : q.queue = [])
      (running : q.running = none) : Step q .stop { q with stopped := true }

/-! ## Order -/

def Event.posts : Event α → List α
  | post job => [job]
  | _ => []

def Event.takes : Event α → List α
  | take job => [job]
  | _ => []

def Event.finishes : Event α → List α
  | finish job => [job]
  | _ => []

/-- The jobs that were posted, in order. -/
def posted (events : List (Event α)) : List α := events.flatMap Event.posts

/-- The jobs that the thread has taken, in order. -/
def taken (events : List (Event α)) : List α := events.flatMap Event.takes

/-- The jobs that the thread has finished, in order. -/
def finished (events : List (Event α)) : List α := events.flatMap Event.finishes

theorem Step.takes_append_queue {q q' : WorkQueue α} {event : Event α} (h : Step q event q') :
    event.takes ++ q'.queue = q.queue ++ event.posts := by
  cases h with
  | take _ _ hqueue => simp [Event.takes, Event.posts, hqueue]
  | _ => simp [Event.takes, Event.posts]

theorem Step.finishes_append_running {q q' : WorkQueue α} {event : Event α}
    (h : Step q event q') :
    event.finishes ++ q'.running.toList = q.running.toList ++ event.takes := by
  cases h with
  | take _ hrunning _ => simp [Event.finishes, Event.takes, hrunning]
  | finish hrunning => simp [Event.finishes, Event.takes, hrunning]
  | _ => simp [Event.finishes, Event.takes]

/-- What is taken comes off the front of the queue, and what is posted goes to
its end. -/
theorem taken_append_queue {q q' : WorkQueue α} {events : List (Event α)}
    (h : Run Step q events q') : taken events ++ q'.queue = q.queue ++ posted events :=
  h.conserves fun _ _ _ step => step.takes_append_queue

/-- One job runs at a time, so the jobs are finished in the order in which they
were taken. -/
theorem finished_append_running {q q' : WorkQueue α} {events : List (Event α)}
    (h : Run Step q events q') :
    finished events ++ q'.running.toList = q.running.toList ++ taken events :=
  h.conserves fun _ _ _ step => step.finishes_append_running

/-! ## Stopping -/

/-- A stopped thread leaves nothing behind. -/
structure Settled (q : WorkQueue α) : Prop where
  work : q.stopped = true → q.work = false
  queue : q.stopped = true → q.queue = []
  running : q.stopped = true → q.running = none

theorem Step.stopped {q q' : WorkQueue α} {event : Event α} (h : Step q event q')
    (hstopped : q.stopped = true) : q'.stopped = true := by
  cases h with
  | stop _ _ _ => rfl
  | _ => exact hstopped

theorem settled_of_not_stopped {q : WorkQueue α} (h : q.stopped = false) : Settled q := by
  have hnot : ¬ q.stopped = true := by
    rw [h]
    exact Bool.false_ne_true
  exact ⟨fun h => absurd h hnot, fun h => absurd h hnot, fun h => absurd h hnot⟩

/-- The thread stops for good, as long as jobs are posted by those who hold the
token. -/
theorem Step.settled {q q' : WorkQueue α} {event : Event α} (h : Step q event q')
    (hq : Settled q) (hpost : ∀ job, event = .post job → q.work = true) : Settled q' := by
  cases h with
  | post job =>
    apply settled_of_not_stopped
    cases hstopped : q.stopped with
    | false => rfl
    | true =>
      have hgone := hq.work hstopped
      rw [hpost job rfl] at hgone
      exact absurd hgone.symm Bool.false_ne_true
  | take hstopped _ _ => exact settled_of_not_stopped hstopped
  | finish _ => exact ⟨hq.work, hq.queue, fun _ => rfl⟩
  | reset => exact ⟨fun _ => rfl, hq.queue, hq.running⟩
  | stop hwork hqueue hrunning => exact ⟨fun _ => hwork, fun _ => hqueue, fun _ => hrunning⟩

end WorkQueue
