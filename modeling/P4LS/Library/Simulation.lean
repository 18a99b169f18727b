import P4LS.Library.Run

/-!
# What runs show

Every label of a system shows some observations.  A simulation relates two
systems of which the first may take silent steps of its own, as long as a rank
falls, and which may part where neither shows anything any more.  Related states
show the same.
-/

variable {σ τ α β ο : Type} {Step : σ → α → σ → Prop} {Step' : τ → β → τ → Prop}
  {obs : α → List ο} {obs' : β → List ο}

/-- A run shows these observations, in this order. -/
def Shows (Step : σ → α → σ → Prop) (obs : α → List ο) (s : σ) (os : List ο) : Prop :=
  ∃ as s', Run Step s as s' ∧ as.flatMap obs = os

/-- A run shows these observations, and none shows more. -/
def ShowsAll (Step : σ → α → σ → Prop) (obs : α → List ο) (s : σ) (os : List ο) : Prop :=
  Shows Step obs s os ∧ ∀ more, Shows Step obs s (os ++ more) → more = []

def Silent (Step : σ → α → σ → Prop) (obs : α → List ο) (s : σ) : Prop :=
  ∀ os, Shows Step obs s os → os = []

theorem shows_nil (s : σ) : Shows Step obs s [] := ⟨[], s, .nil s, rfl⟩

theorem Shows.cons {s s' : σ} {a : α} {os : List ο} (step : Step s a s')
    (h : Shows Step obs s' os) : Shows Step obs s (obs a ++ os) := by
  obtain ⟨as, s₁, hrun, rfl⟩ := h
  exact ⟨a :: as, s₁, .cons step hrun, List.flatMap_cons⟩

/-! ## All observations -/

/-- One list begins the other where a step is determined by its state. -/
theorem Shows.prefix_or (hdet : ∀ s a b s₁ s₂, Step s a s₁ → Step s b s₂ → a = b ∧ s₁ = s₂)
    {s : σ} {os₁ os₂ : List ο} (h₁ : Shows Step obs s os₁) (h₂ : Shows Step obs s os₂) :
    os₁ <+: os₂ ∨ os₂ <+: os₁ := by
  obtain ⟨as, _, hrun, rfl⟩ := h₁
  obtain ⟨bs, _, hrun', rfl⟩ := h₂
  rcases hrun.prefix_or hdet hrun' with ⟨rest, rfl⟩ | ⟨rest, rfl⟩
  · exact .inl ⟨rest.flatMap obs, List.flatMap_append.symm⟩
  · exact .inr ⟨rest.flatMap obs, List.flatMap_append.symm⟩

theorem ShowsAll.unique (hdet : ∀ s a b s₁ s₂, Step s a s₁ → Step s b s₂ → a = b ∧ s₁ = s₂)
    {s : σ} {os₁ os₂ : List ο} (h₁ : ShowsAll Step obs s os₁) (h₂ : ShowsAll Step obs s os₂) :
    os₁ = os₂ := by
  rcases h₁.1.prefix_or hdet h₂.1 with ⟨more, rfl⟩ | ⟨more, rfl⟩
  · rw [h₁.2 more h₂.1, List.append_nil]
  · rw [h₂.2 more h₁.1, List.append_nil]

/-- A run into a silent state has shown everything. -/
theorem showsAll_of_silent (hdet : ∀ s a b s₁ s₂, Step s a s₁ → Step s b s₂ → a = b ∧ s₁ = s₂)
    {s s' : σ} {as : List α} (hrun : Run Step s as s') (hsilent : Silent Step obs s') :
    ShowsAll Step obs s (as.flatMap obs) := by
  refine ⟨⟨as, s', hrun, rfl⟩, fun more hmore => ?_⟩
  induction hrun with
  | nil s => exact hsilent more hmore
  | @cons s s₁ _ a as step _ ih =>
    refine ih hsilent ?_
    obtain ⟨bs, s₂, hrun', hbs⟩ := hmore
    cases hrun' with
    | nil _ =>
      obtain ⟨happend, hempty⟩ := List.append_eq_nil_iff.mp hbs.symm
      rw [List.flatMap_cons] at happend
      rw [(List.append_eq_nil_iff.mp happend).2, hempty]
      exact shows_nil s₁
    | cons step' rest' =>
      obtain ⟨rfl, rfl⟩ := hdet _ _ _ _ _ step step'
      rw [List.flatMap_cons, List.flatMap_cons, List.append_assoc,
        List.append_cancel_left_eq] at hbs
      exact ⟨_, s₂, rest', hbs⟩

/-- A system that shows so many observations and no more shows all of them. -/
theorem exists_showsAll {s : σ} {n : Nat} (hbound : ∀ os, Shows Step obs s os → os.length ≤ n) :
    ∃ os, ShowsAll Step obs s os := by
  by_contra hnone
  have hlong : ∀ k, ∃ os, Shows Step obs s os ∧ k ≤ os.length := by
    intro k
    induction k with
    | zero => exact ⟨[], shows_nil s, Nat.zero_le _⟩
    | succ k ih =>
      obtain ⟨os, hos, hlength⟩ := ih
      by_contra hshort
      refine hnone ⟨os, hos, fun more hmore => ?_⟩
      by_contra hne
      refine hshort ⟨os ++ more, hmore, ?_⟩
      have hpos : 0 < more.length := List.length_pos_iff.mpr hne
      rw [List.length_append]
      omega
  obtain ⟨os, hos, hlength⟩ := hlong (n + 1)
  have hle := hbound os hos
  omega

/-! ## Simulations -/

/-- The first system takes a silent step of its own, or a step that the second takes as well, or
both have shown everything. -/
structure Simulation (Step : σ → α → σ → Prop) (obs : α → List ο) (Step' : τ → β → τ → Prop)
    (obs' : β → List ο) (R : σ → τ → Prop) (rank : σ → Nat) : Prop where
  step : ∀ {s t a s'}, R s t → Step s a s' →
    (obs a = [] ∧ R s' t ∧ rank s' < rank s) ∨
    (∃ b t', Step' t b t' ∧ obs' b = obs a ∧ R s' t') ∨
    (obs a = [] ∧ Silent Step obs s' ∧ Silent Step' obs' t)
  enabled : ∀ {s t b t'}, R s t → Step' t b t' → ∃ a s', Step s a s'

namespace Simulation

variable {R : σ → τ → Prop} {rank : σ → Nat} {s : σ} {t : τ} {os : List ο}

theorem forward (h : Simulation Step obs Step' obs' R rank) (hst : R s t)
    (hshows : Shows Step obs s os) : Shows Step' obs' t os := by
  obtain ⟨as, s₁, hrun, rfl⟩ := hshows
  induction hrun generalizing t with
  | nil _ => exact shows_nil t
  | cons step rest ih =>
    rw [List.flatMap_cons]
    rcases h.step hst step with ⟨hobs, hst', _⟩ | ⟨b, t', step', hobs, hst'⟩ | ⟨hobs, hsilent, _⟩
    · rw [hobs]
      exact ih hst'
    · rw [← hobs]
      exact .cons step' (ih hst')
    · rw [hobs, hsilent _ ⟨_, _, rest, rfl⟩]
      exact shows_nil t

/-- The induction is on the run of the second system, and inside it on the rank. -/
theorem backward (h : Simulation Step obs Step' obs' R rank)
    (hdet : ∀ t b₁ b₂ t₁ t₂, Step' t b₁ t₁ → Step' t b₂ t₂ → b₁ = b₂ ∧ t₁ = t₂) (hst : R s t)
    (hshows : Shows Step' obs' t os) : Shows Step obs s os := by
  obtain ⟨bs, t₁, hrun, rfl⟩ := hshows
  induction hrun generalizing s with
  | nil _ => exact shows_nil s
  | cons step' rest ih =>
    induction hrank : rank s using Nat.strongRecOn generalizing s with
    | ind n ihrank =>
      subst hrank
      obtain ⟨a, s', step⟩ := h.enabled hst step'
      rcases h.step hst step with ⟨hobs, hst', hlt⟩ | ⟨b, t', step'', hobs, hst'⟩ | ⟨_, _, hsilent⟩
      · have hrest := (ihrank _ hlt hst' rfl).cons step
        rw [hobs] at hrest
        exact hrest
      · obtain ⟨rfl, rfl⟩ := hdet _ _ _ _ _ step' step''
        rw [List.flatMap_cons, hobs]
        exact (ih hst').cons step
      · rw [hsilent _ ⟨_, _, .cons step' rest, rfl⟩]
        exact shows_nil s

theorem shows_iff (h : Simulation Step obs Step' obs' R rank)
    (hdet : ∀ t b₁ b₂ t₁ t₂, Step' t b₁ t₁ → Step' t b₂ t₂ → b₁ = b₂ ∧ t₁ = t₂) (hst : R s t)
    (os : List ο) : Shows Step obs s os ↔ Shows Step' obs' t os :=
  ⟨h.forward hst, h.backward hdet hst⟩

theorem showsAll_iff (h : Simulation Step obs Step' obs' R rank)
    (hdet : ∀ t b₁ b₂ t₁ t₂, Step' t b₁ t₁ → Step' t b₂ t₂ → b₁ = b₂ ∧ t₁ = t₂) (hst : R s t)
    (os : List ο) : ShowsAll Step obs s os ↔ ShowsAll Step' obs' t os := by
  simp only [ShowsAll, h.shows_iff hdet hst]

end Simulation
