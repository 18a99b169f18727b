import Mathlib.Data.List.Induction
import Mathlib.Logic.Function.Basic

/-!
# Documents under edit

A client opens, changes, saves and closes documents, and keeps the text of each.
A store that replaces nothing on opening follows the client's texts as long as
every document comes back with the text it was left with, and not otherwise.
-/

namespace Documents

variable {κ τ ε : Type} [DecidableEq κ]

inductive Event (κ τ ε : Type) where
  | opened (key : κ) (text : τ)
  | changed (key : κ) (change : ε)
  | closed (key : κ)
  | saved (key : κ)

def Event.key : Event κ τ ε → κ
  | opened key _ => key
  | changed key _ => key
  | closed key => key
  | saved key => key

/-- A document the client has opened at least once. -/
structure Copy (τ : Type) where
  isOpen : Bool
  text : τ
  deriving DecidableEq

/-- The documents as the client has them. -/
abbrev Ledger (κ τ : Type) := κ → Option (Copy τ)

/-- The texts a server has. -/
abbrev Store (κ τ : Type) := κ → Option τ

/-- A document is opened while it is not open, and changed and closed while it
is. -/
def Allowed (ledger : Ledger κ τ) : Event κ τ ε → Prop
  | .opened key _ => ∀ copy, ledger key = some copy → copy.isOpen = false
  | .changed key _ => ∃ text, ledger key = some ⟨true, text⟩
  | .closed key => ∃ text, ledger key = some ⟨true, text⟩
  | .saved _ => True

section Edit

variable (edit : τ → ε → τ)

def record (ledger : Ledger κ τ) : Event κ τ ε → Ledger κ τ
  | .opened key text => Function.update ledger key (some ⟨true, text⟩)
  | .changed key change =>
    Function.update ledger key
      ((ledger key).map fun copy => { copy with text := edit copy.text change })
  | .closed key =>
    Function.update ledger key ((ledger key).map fun copy => { copy with isOpen := false })
  | .saved _ => ledger

/-- Opening a document that the store has keeps the stored text. -/
def keep (store : Store κ τ) : Event κ τ ε → Store κ τ
  | .opened key text => Function.update store key (some ((store key).getD text))
  | .changed key change => Function.update store key ((store key).map (edit · change))
  | .closed _ => store
  | .saved _ => store

def ledgerAfter (events : List (Event κ τ ε)) : Ledger κ τ :=
  events.foldl (record edit) fun _ => none

def storeAfter (events : List (Event κ τ ε)) : Store κ τ :=
  events.foldl (keep edit) fun _ => none

def SessionFrom (ledger : Ledger κ τ) : List (Event κ τ ε) → Prop
  | [] => True
  | event :: events => Allowed ledger event ∧ SessionFrom (record edit ledger event) events

/-- A sequence of events that a client can send. -/
def Session (events : List (Event κ τ ε)) : Prop := SessionFrom edit (fun _ => none) events

/-- Every document comes back with the text it was left with. -/
def Faithful (events : List (Event κ τ ε)) : Prop :=
  ∀ earlier key text later, events = earlier ++ .opened key text :: later →
    ∀ copy, ledgerAfter edit earlier key = some copy → text = copy.text

/-- The store has the texts of the open documents. -/
def Agrees (store : Store κ τ) (ledger : Ledger κ τ) : Prop :=
  ∀ key text, ledger key = some ⟨true, text⟩ → store key = some text

/-- The store has the texts of all documents that were ever opened. -/
def Mirrors (store : Store κ τ) (ledger : Ledger κ τ) : Prop :=
  ∀ key, store key = (ledger key).map Copy.text

variable {edit}

omit [DecidableEq κ] in
theorem Mirrors.agrees {store : Store κ τ} {ledger : Ledger κ τ} (h : Mirrors store ledger) :
    Agrees store ledger := by
  intro key text hkey
  rw [h key, hkey]
  rfl

theorem ledgerAfter_concat (events : List (Event κ τ ε)) (event : Event κ τ ε) :
    ledgerAfter edit (events ++ [event]) = record edit (ledgerAfter edit events) event := by
  rw [ledgerAfter, List.foldl_append]
  rfl

theorem storeAfter_concat (events : List (Event κ τ ε)) (event : Event κ τ ε) :
    storeAfter edit (events ++ [event]) = keep edit (storeAfter edit events) event := by
  rw [storeAfter, List.foldl_append]
  rfl

/-- One event keeps the mirror unless a document comes back with another text. -/
theorem Mirrors.step {store : Store κ τ} {ledger : Ledger κ τ} {event : Event κ τ ε}
    (h : Mirrors store ledger)
    (hevent : ∀ key text, event = .opened key text →
      ∀ copy, ledger key = some copy → text = copy.text) :
    Mirrors (keep edit store event) (record edit ledger event) := by
  intro key
  cases event with
  | opened key' text =>
    by_cases hkey : key = key'
    · subst hkey
      rw [keep, record, Function.update_self, Function.update_self, h key]
      cases hcopy : ledger key with
      | none => rfl
      | some copy =>
        rw [hevent key text rfl copy hcopy]
        rfl
    · rw [keep, record, Function.update_of_ne hkey, Function.update_of_ne hkey]
      exact h key
  | changed key' change =>
    by_cases hkey : key = key'
    · subst hkey
      rw [keep, record, Function.update_self, Function.update_self, h key]
      cases ledger key <;> rfl
    · rw [keep, record, Function.update_of_ne hkey, Function.update_of_ne hkey]
      exact h key
  | closed key' =>
    rw [keep, record, h key]
    by_cases hkey : key = key'
    · subst hkey
      rw [Function.update_self]
      cases ledger key <;> rfl
    · rw [Function.update_of_ne hkey]
  | saved key' => exact h key

theorem Faithful.initial {events later : List (Event κ τ ε)}
    (h : Faithful edit (events ++ later)) : Faithful edit events := by
  intro earlier key text rest hsplit
  exact h earlier key text (rest ++ later) (by rw [hsplit, List.append_assoc]; rfl)

theorem mirrors_of_faithful {events : List (Event κ τ ε)} (h : Faithful edit events) :
    Mirrors (storeAfter edit events) (ledgerAfter edit events) := by
  induction events using List.reverseRecOn with
  | nil =>
    intro key
    rfl
  | append_singleton events event ih =>
    rw [storeAfter_concat, ledgerAfter_concat]
    refine (ih h.initial).step fun key text hevent => ?_
    subst hevent
    exact h events key text [] rfl

/-- If the store always agrees with the client, documents come back as they were
left. -/
theorem faithful_of_agrees {events : List (Event κ τ ε)}
    (h : ∀ earlier later, events = earlier ++ later →
      Agrees (storeAfter edit earlier) (ledgerAfter edit earlier)) : Faithful edit events := by
  induction events using List.reverseRecOn with
  | nil =>
    intro earlier key text later hsplit
    exact absurd hsplit (by simp)
  | append_singleton events event ih =>
    have hevents : Faithful edit events := by
      apply ih
      intro earlier later hsplit
      exact h earlier (later ++ [event]) (by rw [hsplit, List.append_assoc])
    intro earlier key text later hsplit copy hcopy
    cases later using List.reverseRecOn with
    | nil =>
      obtain ⟨rfl, hevent⟩ := List.append_inj' hsplit rfl
      cases hevent
      -- the last event opens the document again, and the store keeps its old text
      have hagrees := h (events ++ [.opened key text]) [] (List.append_nil _).symm
      rw [storeAfter_concat, ledgerAfter_concat] at hagrees
      have hkey := hagrees key text (Function.update_self ..)
      rw [keep, Function.update_self, mirrors_of_faithful hevents key, hcopy] at hkey
      exact (Option.some.inj hkey).symm
    | append_singleton later last =>
      have hsplit' : events = earlier ++ .opened key text :: later := by
        have hassoc : events ++ [event] = (earlier ++ .opened key text :: later) ++ [last] := by
          rw [hsplit, List.append_assoc]
          rfl
        exact (List.append_inj' hassoc rfl).1
      exact hevents earlier key text later hsplit' copy hcopy

theorem agrees_iff_faithful {events : List (Event κ τ ε)} :
    (∀ earlier later, events = earlier ++ later →
      Agrees (storeAfter edit earlier) (ledgerAfter edit earlier)) ↔ Faithful edit events := by
  constructor
  · exact faithful_of_agrees
  · intro h earlier later hsplit
    rw [hsplit] at h
    exact (mirrors_of_faithful h.initial).agrees

end Edit

end Documents
