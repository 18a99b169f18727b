import P4LS.Library.Context
import P4LS.Library.Run
import P4LS.Library.SharedList

/-!
# The contexts of a thread

A context of the server is a shared pointer to a binding, which points to the binding it was
derived from.  A scoped context swaps a derived context into the thread, and swaps the one from
before back where it ends.  The contexts refine the chains of bindings: a lookup finds the
innermost scope of its key, and no context is changed by what is derived from it.
-/

namespace P4LS

open SharedList

variable {κ : Type} {ν : κ → Type}

/-- What a thread has of contexts: the bindings in memory, and the pointers of the current
context, of `_previous` in the scoped contexts that are alive, the innermost first, and of all
other contexts.  A pointer is null or points to a binding. -/
structure ContextThread (ν : κ → Type) where
  store : Store (Sigma ν)
  current : Option Nat
  previous : List (Option Nat)
  held : List (Option Nat)
  currentLive : store.Live current
  previousLive : ∀ r ∈ previous, store.Live r
  heldLive : ∀ r ∈ held, store.Live r

namespace ContextThread

/-- The value of a binding, if it is one of the key. -/
def valueOf [DecidableEq κ] (key : κ) (binding : Sigma ν) : Option (ν key) :=
  if h : binding.1 = key then some (h ▸ binding.2) else none

/-- The loop of `get_value`. -/
def getValue [DecidableEq κ] (thread : ContextThread ν) (key : κ) (data : Option Nat) :
    Option (ν key) :=
  thread.store.search (valueOf key) data

/-- A thread that has no context yet. -/
def createEmpty : ContextThread ν where
  store := .empty
  current := none
  previous := []
  held := []
  currentLive := Store.live_none
  previousLive := fun _ h => by cases h
  heldLive := fun _ h => by cases h

/-- `swap_current`: the context that is current now, and the one that is returned. -/
def swapCurrent (current other : Option Nat) : Option Nat × Option Nat := (other, current)

/-- `derive`: the bindings with one more, and the pointer to it. -/
def derive (store : Store (Sigma ν)) (key : κ) (value : ν key) (data : Option Nat)
    (h : store.Live data) : Store (Sigma ν) × Option Nat :=
  (store.alloc ⟨key, value⟩ data h, some store.nodes.length)

/-- The constructor of a scoped context. -/
def construct (thread : ContextThread ν) (key : κ) (value : ν key) : ContextThread ν :=
  let derived := derive thread.store key value thread.current thread.currentLive
  let swapped := swapCurrent thread.current derived.2
  { store := derived.1
    current := swapped.1
    previous := swapped.2 :: thread.previous
    held := thread.held
    currentLive := Store.live_new _ thread.currentLive
    previousLive := List.forall_mem_cons.mpr
      ⟨Store.live_alloc _ thread.currentLive thread.currentLive,
        fun r hr => Store.live_alloc _ thread.currentLive (thread.previousLive r hr)⟩
    heldLive := fun r hr => Store.live_alloc _ thread.currentLive (thread.heldLive r hr) }

/-- The destructor of a scoped context, given what is in its `_previous` and what is in those of
the scopes around it. -/
def destruct (thread : ContextThread ν) (previous : Option Nat) (outer : List (Option Nat))
    (h : thread.previous = previous :: outer) : ContextThread ν :=
  { store := thread.store
    current := (swapCurrent thread.current previous).1
    previous := outer
    held := thread.held
    currentLive := thread.previousLive _ (by rw [h]; exact List.mem_cons_self)
    previousLive := fun r hr => thread.previousLive r (by rw [h]; exact List.mem_cons_of_mem _ hr)
    heldLive := thread.heldLive }

/-- A clone of the current context is kept. -/
def clone (thread : ContextThread ν) : ContextThread ν :=
  { thread with
    held := thread.held ++ [thread.current]
    heldLive := List.forall_mem_append.mpr
      ⟨thread.heldLive, List.forall_mem_singleton.mpr thread.currentLive⟩ }

/-- A context that is derived from a kept one is kept. -/
def deriveHeld (thread : ContextThread ν) (key : κ) (value : ν key) (data : Option Nat)
    (h : data ∈ thread.held) : ContextThread ν :=
  have hdata := thread.heldLive data h
  let derived := derive thread.store key value data hdata
  { store := derived.1
    current := thread.current
    previous := thread.previous
    held := thread.held ++ [derived.2]
    currentLive := Store.live_alloc _ hdata thread.currentLive
    previousLive := fun r hr => Store.live_alloc _ hdata (thread.previousLive r hr)
    heldLive := List.forall_mem_append.mpr
      ⟨fun r hr => Store.live_alloc _ hdata (thread.heldLive r hr),
        List.forall_mem_singleton.mpr (Store.live_new _ hdata)⟩ }

/-- The pointer is moved out of a kept context. -/
def moveHeld (thread : ContextThread ν) (i : Nat) : ContextThread ν :=
  { thread with
    held := thread.held.set i none
    heldLive := by
      intro r hr
      rcases List.mem_or_eq_of_mem_set hr with hr | rfl
      · exact thread.heldLive r hr
      · exact Store.live_none }

end ContextThread

/-- What a thread does with contexts.  The other contexts it keeps have numbers, and the overload
of `derive` for an rvalue moves the pointer out of the context it derives from. -/
inductive ContextAction (ν : κ → Type) where
  | construct (key : κ) (value : ν key)
  | destruct
  | clone
  | derive (i : Nat) (key : κ) (value : ν key)
  | deriveMoved (i : Nat) (key : κ) (value : ν key)

namespace ContextThread

/-- One action.  There is no scoped context to destruct where none is alive, and nothing is
derived from a context that is not kept. -/
inductive Step : ContextThread ν → ContextAction ν → ContextThread ν → Prop where
  | construct (thread : ContextThread ν) (key : κ) (value : ν key) :
      Step thread (.construct key value) (thread.construct key value)
  | destruct (thread : ContextThread ν) (previous : Option Nat) (outer : List (Option Nat))
      (h : thread.previous = previous :: outer) :
      Step thread .destruct (thread.destruct previous outer h)
  | clone (thread : ContextThread ν) : Step thread .clone thread.clone
  | derive (thread : ContextThread ν) (i : Nat) (key : κ) (value : ν key) (data : Option Nat)
      (h : thread.held[i]? = some data) :
      Step thread (.derive i key value)
        (thread.deriveHeld key value data (List.mem_of_getElem? h))
  | deriveMoved (thread : ContextThread ν) (i : Nat) (key : κ) (value : ν key)
      (data : Option Nat) (h : thread.held[i]? = some data) :
      Step thread (.deriveMoved i key value)
        ((thread.deriveHeld key value data (List.mem_of_getElem? h)).moveHeld i)

/-! ## The chains of bindings -/

/-- The bindings of a context, the innermost first. -/
def bindings (thread : ContextThread ν) (data : Option Nat) : Context ν :=
  thread.store.entries data

theorem findSome?_valueOf [DecidableEq κ] (key : κ) (context : Context ν) :
    context.findSome? (valueOf key) = context.getValue key := by
  induction context with
  | nil => rfl
  | cons binding context ih =>
    obtain ⟨other, value⟩ := binding
    rw [List.findSome?_cons, ih]
    by_cases h : other = key
    · subst h
      rw [valueOf, dif_pos rfl]
      exact (Context.getValue_derive_self other value context).symm
    · rw [valueOf, dif_neg h]
      exact (Context.getValue_derive_of_ne (Ne.symm h) value context).symm

/-- A lookup is the one in the chain of bindings. -/
theorem getValue_eq [DecidableEq κ] (thread : ContextThread ν) (key : κ) (data : Option Nat) :
    thread.getValue key data = (thread.bindings data).getValue key :=
  (Store.search_eq _ _ _).trans (findSome?_valueOf key _)

variable {thread thread' : ContextThread ν} {action : ContextAction ν}
  {actions : List (ContextAction ν)}

/-- Every context there is stays one, with the bindings it has. -/
def Keeps (thread thread' : ContextThread ν) : Prop :=
  ∀ r, thread.store.Live r → thread'.store.Live r ∧ thread'.bindings r = thread.bindings r

theorem Keeps.refl (thread : ContextThread ν) : Keeps thread thread := fun _ hr => ⟨hr, rfl⟩

theorem Keeps.trans {thread₁ thread₂ thread₃ : ContextThread ν} (h : Keeps thread₁ thread₂)
    (h' : Keeps thread₂ thread₃) : Keeps thread₁ thread₃ := by
  intro r hr
  obtain ⟨hlive, heq⟩ := h r hr
  obtain ⟨hlive', heq'⟩ := h' r hlive
  exact ⟨hlive', heq'.trans heq⟩

theorem Step.keeps (h : Step thread action thread') : Keeps thread thread' := by
  cases h with
  | construct key value =>
    exact fun r hr => ⟨Store.live_alloc _ thread.currentLive hr,
      Store.entries_alloc _ thread.currentLive hr⟩
  | destruct previous outer h => exact Keeps.refl thread
  | clone => exact Keeps.refl thread
  | derive i key value data h =>
    have hdata := thread.heldLive data (List.mem_of_getElem? h)
    exact fun r hr => ⟨Store.live_alloc _ hdata hr, Store.entries_alloc _ hdata hr⟩
  | deriveMoved i key value data h =>
    have hdata := thread.heldLive data (List.mem_of_getElem? h)
    exact fun r hr => ⟨Store.live_alloc _ hdata hr, Store.entries_alloc _ hdata hr⟩

theorem keeps_of_run (h : Run Step thread actions thread') : Keeps thread thread' := by
  induction h with
  | nil thread => exact Keeps.refl thread
  | cons step _ ih => exact step.keeps.trans ih

/-! ## The scopes that are open -/

/-- The bindings of the scoped contexts that are alive after some actions, the innermost first. -/
def openScopes : Context ν → List (ContextAction ν) → Context ν
  | scopes, [] => scopes
  | scopes, .construct key value :: rest => openScopes (scopes.derive key value) rest
  | scopes, .destruct :: rest => openScopes scopes.tail rest
  | scopes, _ :: rest => openScopes scopes rest

/-- The actions are nested, with `scopes` open and `held` contexts kept in front of them: a scope
that ends has begun, and nothing is derived from a context that is not kept. -/
def Nested : Nat → Nat → List (ContextAction ν) → Prop
  | _, _, [] => True
  | scopes, held, .construct _ _ :: rest => Nested (scopes + 1) held rest
  | 0, _, .destruct :: _ => False
  | scopes + 1, held, .destruct :: rest => Nested scopes held rest
  | scopes, held, .clone :: rest => Nested scopes (held + 1) rest
  | scopes, held, .derive i _ _ :: rest => i < held ∧ Nested scopes (held + 1) rest
  | scopes, held, .deriveMoved i _ _ :: rest => i < held ∧ Nested scopes (held + 1) rest

/-- From `data` on there are the bindings of the open scopes, one for each `_previous`, and then
those of the context that was current before the first of them. -/
def Stacked (store : Store (Sigma ν)) (base : Context ν) :
    Context ν → Option Nat → List (Option Nat) → Prop
  | [], data, _ => store.entries data = base
  | scope :: scopes, data, previous =>
    ∃ r outer, previous = r :: outer ∧ store.entries data = scope :: store.entries r ∧
      Stacked store base scopes r outer

section Stacked

variable {store store' : Store (Sigma ν)} {base scopes : Context ν} {data : Option Nat}
  {previous : List (Option Nat)}

theorem Stacked.entries_eq (h : Stacked store base scopes data previous) :
    store.entries data = scopes ++ base := by
  induction scopes generalizing data previous with
  | nil => exact h
  | cons scope scopes ih =>
    obtain ⟨r, outer, _, hentries, hrest⟩ := h
    rw [hentries, ih hrest, List.cons_append]

theorem Stacked.length_le (h : Stacked store base scopes data previous) :
    scopes.length ≤ previous.length := by
  induction scopes generalizing data previous with
  | nil => exact Nat.zero_le _
  | cons scope scopes ih =>
    obtain ⟨r, outer, rfl, _, hrest⟩ := h
    exact Nat.succ_le_succ (ih hrest)

theorem Stacked.mono (h : Stacked store base scopes data previous)
    (hdata : store'.entries data = store.entries data)
    (hprevious : ∀ r ∈ previous, store'.entries r = store.entries r) :
    Stacked store' base scopes data previous := by
  induction scopes generalizing data previous with
  | nil => exact hdata.trans h
  | cons scope scopes ih =>
    obtain ⟨r, outer, rfl, hentries, hrest⟩ := h
    obtain ⟨hfirst, houter⟩ := List.forall_mem_cons.mp hprevious
    exact ⟨r, outer, rfl, by rw [hdata, hfirst, hentries], ih hrest hfirst houter⟩

end Stacked

/-- The open scopes are stacked on the bindings of a context. -/
def StackedOn (thread : ContextThread ν) (base scopes : Context ν) : Prop :=
  Stacked thread.store base scopes thread.current thread.previous

section StackedOn

variable {base scopes : Context ν}

/-- What leaves the current context and the scopes alone leaves them stacked. -/
theorem StackedOn.keeps (h : thread.StackedOn base scopes) (hkeeps : Keeps thread thread')
    (hcurrent : thread'.current = thread.current)
    (hprevious : thread'.previous = thread.previous) : thread'.StackedOn base scopes := by
  unfold StackedOn
  rw [hcurrent, hprevious]
  exact Stacked.mono h (hkeeps _ thread.currentLive).2
    fun r hr => (hkeeps r (thread.previousLive r hr)).2

theorem StackedOn.construct (h : thread.StackedOn base scopes) (key : κ) (value : ν key) :
    (thread.construct key value).StackedOn base (scopes.derive key value) := by
  have hkeeps := (Step.construct thread key value).keeps
  refine ⟨thread.current, thread.previous, rfl, ?_, ?_⟩
  · rw [show (thread.construct key value).store.entries thread.current = _ from
      (hkeeps _ thread.currentLive).2]
    exact Store.entries_new _ thread.currentLive
  · exact Stacked.mono h (hkeeps _ thread.currentLive).2
      fun r hr => (hkeeps r (thread.previousLive r hr)).2

theorem StackedOn.destruct {binding : Sigma ν} (h : thread.StackedOn base (binding :: scopes))
    {previous : Option Nat} {outer : List (Option Nat)}
    (hprevious : thread.previous = previous :: outer) :
    (thread.destruct previous outer hprevious).StackedOn base scopes := by
  obtain ⟨r, outer', heq, _, hrest⟩ := h
  rw [hprevious, List.cons.injEq] at heq
  obtain ⟨rfl, rfl⟩ := heq
  exact hrest

/-- Nested actions leave the scopes stacked that are open behind them. -/
theorem StackedOn.run (hrun : Run Step thread actions thread') {held : Nat}
    (hnested : Nested scopes.length held actions) (h : thread.StackedOn base scopes) :
    thread'.StackedOn base (openScopes scopes actions) := by
  induction hrun generalizing scopes held with
  | nil thread => exact h
  | cons step _ ih =>
    cases step with
    | construct key value => exact ih hnested (h.construct key value)
    | destruct previous outer hprevious =>
      cases scopes with
      | nil => exact absurd hnested id
      | cons binding scopes => exact ih hnested (h.destruct hprevious)
    | clone => exact ih hnested (h.keeps (Step.clone _).keeps rfl rfl)
    | derive i key value data hdata =>
      exact ih hnested.2 (h.keeps (Step.derive _ i key value data hdata).keeps rfl rfl)
    | deriveMoved i key value data hdata =>
      exact ih hnested.2 (h.keeps (Step.deriveMoved _ i key value data hdata).keeps rfl rfl)

end StackedOn

/-! ## The contexts that are kept -/

theorem length_clone (thread : ContextThread ν) :
    thread.clone.held.length = thread.held.length + 1 := List.length_append

theorem length_deriveHeld (key : κ) (value : ν key) {data : Option Nat} (h : data ∈ thread.held) :
    (thread.deriveHeld key value data h).held.length = thread.held.length + 1 :=
  List.length_append

theorem length_moveHeld (thread : ContextThread ν) (i : Nat) :
    (thread.moveHeld i).held.length = thread.held.length := List.length_set

/-- Nested actions can be done. -/
theorem exists_run {scopes : Nat} (hnested : Nested scopes thread.held.length actions)
    (hscopes : scopes ≤ thread.previous.length) :
    ∃ thread', Run Step thread actions thread' := by
  induction actions generalizing thread scopes with
  | nil => exact ⟨thread, .nil thread⟩
  | cons action actions ih =>
    cases action with
    | construct key value =>
      obtain ⟨thread', hrun⟩ := @ih (thread.construct key value) _ hnested
        (Nat.succ_le_succ hscopes)
      exact ⟨thread', .cons (.construct thread key value) hrun⟩
    | destruct =>
      cases scopes with
      | zero => exact absurd hnested id
      | succ scopes =>
        obtain ⟨previous, outer, hprevious⟩ :=
          List.exists_cons_of_length_pos (Nat.lt_of_lt_of_le (Nat.succ_pos scopes) hscopes)
        rw [hprevious] at hscopes
        obtain ⟨thread', hrun⟩ := @ih (thread.destruct previous outer hprevious) _ hnested
          (Nat.le_of_succ_le_succ hscopes)
        exact ⟨thread', .cons (.destruct thread previous outer hprevious) hrun⟩
    | clone =>
      obtain ⟨thread', hrun⟩ := @ih thread.clone _ (by rw [length_clone]; exact hnested) hscopes
      exact ⟨thread', .cons (.clone thread) hrun⟩
    | derive i key value =>
      have hdata := List.getElem?_eq_getElem hnested.1
      obtain ⟨thread', hrun⟩ := @ih (thread.deriveHeld key value _ (List.mem_of_getElem? hdata)) _
        (by rw [length_deriveHeld]; exact hnested.2) hscopes
      exact ⟨thread', .cons (.derive thread i key value _ hdata) hrun⟩
    | deriveMoved i key value =>
      have hdata := List.getElem?_eq_getElem hnested.1
      obtain ⟨thread', hrun⟩ := @ih
        ((thread.deriveHeld key value _ (List.mem_of_getElem? hdata)).moveHeld i) _
        (by rw [length_moveHeld, length_deriveHeld]; exact hnested.2) hscopes
      exact ⟨thread', .cons (.deriveMoved thread i key value _ hdata) hrun⟩

end ContextThread

/-- The kept context that an action moves the pointer out of. -/
def ContextAction.moves : ContextAction ν → Option Nat
  | .deriveMoved i _ _ => some i
  | _ => none

namespace ContextThread

variable {thread thread' : ContextThread ν} {action : ContextAction ν}
  {actions : List (ContextAction ν)} {i : Nat} {data : Option Nat}

theorem Step.held (h : Step thread action thread') (hmoves : action.moves ≠ some i)
    (hdata : thread.held[i]? = some data) : thread'.held[i]? = some data := by
  have happend : ∀ r, (thread.held ++ [r])[i]? = some data := fun r => by
    rw [List.getElem?_append_left (List.getElem?_eq_some_iff.mp hdata).1, hdata]
  cases h with
  | construct key value => exact hdata
  | destruct previous outer h => exact hdata
  | clone => exact happend _
  | derive j key value r h => exact happend _
  | deriveMoved j key value r h =>
    have hne : j ≠ i := fun heq => hmoves (congrArg some heq)
    exact (List.getElem?_set_ne hne).trans (happend _)

/-- A kept context that no pointer is moved out of stays the one it is. -/
theorem held_of_run (h : Run Step thread actions thread')
    (hmoves : ∀ action ∈ actions, action.moves ≠ some i)
    (hdata : thread.held[i]? = some data) : thread'.held[i]? = some data := by
  induction h with
  | nil thread => exact hdata
  | cons step _ ih =>
    obtain ⟨hfirst, hrest⟩ := List.forall_mem_cons.mp hmoves
    exact ih hrest (step.held hfirst hdata)

/-! ## Lookups -/

variable [DecidableEq κ]

/-- What lookups find after some actions. -/
structure FormsStack (thread : ContextThread ν) (actions : List (ContextAction ν))
    (thread' : ContextThread ν) : Prop where
  /-- In the current context, the innermost open scope of the key, and what there was without
  the scopes where there is none. -/
  innermost : ∀ key, thread'.getValue key thread'.current =
    ((openScopes [] actions).getValue key).or (thread.getValue key thread.current)
  /-- Nothing, where no context was current and no open scope is one of the key. -/
  null : thread.current = none →
    ∀ key, thread'.getValue key thread'.current = (openScopes [] actions).getValue key
  /-- After the last scope, what was found before the first. -/
  restored : openScopes [] actions = [] →
    ∀ key, thread'.getValue key thread'.current = thread.getValue key thread.current
  /-- In every context there was at some time, what was found in it then. -/
  persistent : ∀ earlier later thread₁, actions = earlier ++ later →
    Run Step thread earlier thread₁ → Run Step thread₁ later thread' →
    ∀ r, thread₁.store.Live r → ∀ key, thread'.getValue key r = thread₁.getValue key r
  /-- The kept contexts are still those, but for the ones that pointers were moved out of. -/
  kept : ∀ earlier later thread₁, actions = earlier ++ later →
    Run Step thread earlier thread₁ → Run Step thread₁ later thread' →
    ∀ i data, thread₁.held[i]? = some data → (∀ action ∈ later, action.moves ≠ some i) →
      thread'.held[i]? = some data

theorem Keeps.getValue_eq (h : Keeps thread thread') (hdata : thread.store.Live data)
    (key : κ) : thread'.getValue key data = thread.getValue key data := by
  rw [ContextThread.getValue_eq, ContextThread.getValue_eq, (h data hdata).2]

/-- In the current context the bindings of the open scopes are before those there were. -/
theorem getValue_current (hnested : Nested 0 thread.held.length actions)
    (hrun : Run Step thread actions thread') (key : κ) :
    thread'.getValue key thread'.current =
      ((openScopes [] actions).getValue key).or (thread.getValue key thread.current) := by
  have hstart : thread.StackedOn (thread.bindings thread.current) [] := rfl
  have hbindings : thread'.bindings thread'.current =
      openScopes [] actions ++ thread.bindings thread.current :=
    Stacked.entries_eq (StackedOn.run hrun hnested hstart)
  rw [getValue_eq, getValue_eq, hbindings]
  exact List.dlookup_append _ _ key

theorem getValue_none (thread : ContextThread ν) (key : κ) : thread.getValue key none = none := by
  rw [getValue_eq, bindings, Store.entries_none]
  rfl

/-- Scoped contexts are a stack: nested actions can be done, and lookups are those of a stack. -/
theorem formsStack_of_nested (thread : ContextThread ν) (actions : List (ContextAction ν))
    (hnested : Nested 0 thread.held.length actions) :
    (∃ thread', Run Step thread actions thread') ∧
      ∀ thread', Run Step thread actions thread' → FormsStack thread actions thread' := by
  refine ⟨exists_run hnested (Nat.zero_le _), fun thread' hrun => ?_⟩
  have hinnermost := getValue_current hnested hrun
  refine ⟨hinnermost, ?_, ?_, ?_, ?_⟩
  · intro hcurrent key
    rw [hinnermost, hcurrent, getValue_none, Option.or_none]
  · intro hclosed key
    rw [hinnermost, hclosed]
    rfl
  · intro earlier later thread₁ _ _ hlater r hr key
    exact (keeps_of_run hlater).getValue_eq hr key
  · intro earlier later thread₁ _ _ hlater i data hdata hmoves
    exact held_of_run hlater hmoves hdata

/-- Two keys, the first bound twice, a clone between the bindings, and a context derived from it. -/
theorem formsStack_of_nested_shadowed :
    (∃ thread', Run (@Step Bool fun _ => Nat) createEmpty
      [.construct true 1, .clone, .construct true 2, .deriveMoved 0 false 3, .destruct, .destruct]
      thread') ∧
    ∀ thread', Run (@Step Bool fun _ => Nat) createEmpty
      [.construct true 1, .clone, .construct true 2, .deriveMoved 0 false 3, .destruct, .destruct]
      thread' →
      FormsStack createEmpty
        [.construct true 1, .clone, .construct true 2, .deriveMoved 0 false 3, .destruct,
          .destruct] thread' :=
  formsStack_of_nested createEmpty _ ⟨Nat.zero_lt_one, trivial⟩

end ContextThread

end P4LS
