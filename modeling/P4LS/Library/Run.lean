import Mathlib.Tactic.Common

/-!
# Runs of labelled steps

A run applies steps one after another.  An invariant of the steps is an
invariant of the runs, and a run can be taken apart at any of its steps.
-/

variable {σ τ α β : Type} {Step : σ → α → σ → Prop}

inductive Run (Step : σ → α → σ → Prop) : σ → List α → σ → Prop where
  | nil (s : σ) : Run Step s [] s
  | cons {s s₁ s₂ : σ} {a : α} {as : List α} (step : Step s a s₁) (rest : Run Step s₁ as s₂) :
      Run Step s (a :: as) s₂

namespace Run

theorem append {s s₁ s₂ : σ} {as bs : List α} (h : Run Step s as s₁) (h' : Run Step s₁ bs s₂) :
    Run Step s (as ++ bs) s₂ := by
  induction h with
  | nil _ => exact h'
  | cons step _ ih => exact .cons step (ih h')

theorem split {s s₂ : σ} {as bs : List α} (h : Run Step s (as ++ bs) s₂) :
    ∃ s₁, Run Step s as s₁ ∧ Run Step s₁ bs s₂ := by
  induction as generalizing s with
  | nil => exact ⟨s, .nil s, h⟩
  | cons a as ih =>
    cases h with
    | cons step rest =>
      obtain ⟨s₁, h₁, h₂⟩ := ih rest
      exact ⟨s₁, .cons step h₁, h₂⟩

theorem snoc_inv {s s₂ : σ} {as : List α} {a : α} (h : Run Step s (as ++ [a]) s₂) :
    ∃ s₁, Run Step s as s₁ ∧ Step s₁ a s₂ := by
  obtain ⟨s₁, h₁, h₂⟩ := h.split
  cases h₂ with
  | cons step rest =>
    cases rest
    exact ⟨s₁, h₁, step⟩

/-- What every step keeps, a run keeps. -/
theorem invariant {I : σ → Prop} (hstep : ∀ s a s', I s → Step s a s' → I s')
    {s s' : σ} {as : List α} (h : Run Step s as s') (h₀ : I s) : I s' := by
  induction h with
  | nil _ => exact h₀
  | cons step _ ih => exact ih (hstep _ _ _ h₀ step)

/-- When every step shows as some steps of another system, so does a run. -/
theorem project {Step' : τ → β → τ → Prop} {view : σ → τ} {f : α → List β}
    (hstep : ∀ s a s', Step s a s' → Run Step' (view s) (f a) (view s'))
    {s s' : σ} {as : List α} (h : Run Step s as s') :
    Run Step' (view s) (as.flatMap f) (view s') := by
  induction h with
  | nil s => exact .nil _
  | cons step _ ih =>
    rw [List.flatMap_cons]
    exact (hstep _ _ _ step).append ih

/-- A system that lets out in order what it was given: over a run, what came out
and what it still holds are what it held and what went in. -/
theorem conserves {hold : σ → List β} {given out : α → List β}
    (hstep : ∀ s a s', Step s a s' → out a ++ hold s' = hold s ++ given a)
    {s s' : σ} {as : List α} (h : Run Step s as s') :
    as.flatMap out ++ hold s' = hold s ++ as.flatMap given := by
  induction h with
  | nil s => exact (List.append_nil _).symm
  | cons step _ ih =>
    rw [List.flatMap_cons, List.append_assoc, ih, ← List.append_assoc, hstep _ _ _ step,
      List.append_assoc, ← List.flatMap_cons]

/-- When a step has at most one outcome, so has a run. -/
theorem deterministic (hstep : ∀ s a s₁ s₂, Step s a s₁ → Step s a s₂ → s₁ = s₂)
    {s s₁ s₂ : σ} {as : List α} (h : Run Step s as s₁) (h' : Run Step s as s₂) : s₁ = s₂ := by
  induction h with
  | nil _ =>
    cases h'
    rfl
  | cons step _ ih =>
    cases h' with
    | cons step' rest' =>
      have heq := hstep _ _ _ _ step step'
      rw [heq] at ih
      exact ih rest'

/-- When the state decides about the label too, of two runs one is the beginning of the other. -/
theorem prefix_or (hdet : ∀ s a b s₁ s₂, Step s a s₁ → Step s b s₂ → a = b ∧ s₁ = s₂)
    {s s₁ s₂ : σ} {as bs : List α} (h : Run Step s as s₁) (h' : Run Step s bs s₂) :
    as <+: bs ∨ bs <+: as := by
  induction h generalizing bs with
  | nil _ => exact .inl List.nil_prefix
  | cons step _ ih =>
    cases h' with
    | nil _ => exact .inr List.nil_prefix
    | cons step' rest' =>
      obtain ⟨hlabel, hstate⟩ := hdet _ _ _ _ _ step step'
      subst hlabel hstate
      simpa only [List.cons_prefix_cons, true_and] using ih rest'

/-! ## Conditions on the states of a run -/

/-- `Q` holds of every state that a run can reach. -/
def Always (Step : σ → α → σ → Prop) (Q : σ → Prop) (s : σ) : Prop :=
  ∀ as s₁, Run Step s as s₁ → Q s₁

theorem Always.here {Q : σ → Prop} {s : σ} (h : Always Step Q s) : Q s := h [] s (.nil s)

theorem Always.intro {Q : σ → Prop} {s : σ} (here : Q s)
    (next : ∀ a s₁, Step s a s₁ → Always Step Q s₁) : Always Step Q s := by
  intro as s₁ hrun
  cases hrun with
  | nil _ => exact here
  | cons step rest => exact next _ _ step _ _ rest

theorem Always.step {Q : σ → Prop} {s s₁ : σ} {a : α} (h : Always Step Q s) (step : Step s a s₁) :
    Always Step Q s₁ := fun as s₂ hrun => h (a :: as) s₂ (.cons step hrun)

/-- `Q` holds of every state that a run with these labels takes a step from. -/
def Throughout (Step : σ → α → σ → Prop) (Q : σ → Prop) (s : σ) (as : List α) : Prop :=
  ∀ earlier a later s₁, as = earlier ++ a :: later → Run Step s earlier s₁ → Q s₁

theorem throughout_nil {Q : σ → Prop} (s : σ) : Throughout Step Q s [] := by
  intro earlier a later s₁ hsplit
  exact absurd hsplit.symm (List.append_ne_nil_of_right_ne_nil _ (List.cons_ne_nil _ _))

theorem throughout_cons (hdet : ∀ s a s₁ s₂, Step s a s₁ → Step s a s₂ → s₁ = s₂)
    {Q : σ → Prop} {s s₁ : σ} {a : α} {as : List α} (step : Step s a s₁) :
    Throughout Step Q s (a :: as) ↔ Q s ∧ Throughout Step Q s₁ as := by
  constructor
  · intro h
    refine ⟨h [] a as s rfl (.nil s), fun earlier b later s₂ hsplit hrun => ?_⟩
    exact h (a :: earlier) b later s₂ (by rw [hsplit, List.cons_append]) (.cons step hrun)
  · intro h earlier b later s₂ hsplit hrun
    cases earlier with
    | nil =>
      cases hrun
      exact h.1
    | cons c earlier =>
      obtain ⟨hc, hsplit⟩ := List.cons.inj hsplit
      cases hrun with
      | cons step' rest =>
        rw [← hc] at step'
        rw [hdet _ _ _ _ step' step] at rest
        exact h.2 earlier b later s₂ hsplit rest

/-- Where the state before a step decides something about its label, the states of a run decide
it about all labels. -/
theorem forall_label_iff (hdet : ∀ s a s₁ s₂, Step s a s₁ → Step s a s₂ → s₁ = s₂)
    {P : α → Prop} {Q : σ → Prop} (hstep : ∀ s a s', Step s a s' → (P a ↔ Q s))
    {s s' : σ} {as : List α} (h : Run Step s as s') :
    (∀ a ∈ as, P a) ↔ Throughout Step Q s as := by
  induction h with
  | nil s => exact iff_of_true (fun _ hmem => absurd hmem List.not_mem_nil) (throughout_nil s)
  | cons step _ ih =>
    rw [List.forall_mem_cons, throughout_cons hdet step, hstep _ _ _ step, ih]

/-- What the steps from certain states keep, a run through such states keeps. -/
theorem invariant_of_throughout (hdet : ∀ s a s₁ s₂, Step s a s₁ → Step s a s₂ → s₁ = s₂)
    {I Q : σ → Prop} (hstep : ∀ s a s', Q s → I s → Step s a s' → I s')
    {s s' : σ} {as : List α} (h : Run Step s as s') (hq : Throughout Step Q s as) (h₀ : I s) :
    I s' := by
  induction h with
  | nil _ => exact h₀
  | cons step _ ih =>
    obtain ⟨hs, hrest⟩ := (throughout_cons hdet step).mp hq
    exact ih hrest (hstep _ _ _ hs h₀ step)

end Run
