import Mathlib.Tactic.Common

/-!
# Computations that return or fail

`Returns x` says that a fallible computation comes back with a value.  The
lemmas below push it through the monad, so that what a decoder needs of its
input can be read off the decoder.
-/

namespace Except

variable {ε ε' α β : Type}

def Returns (x : Except ε α) : Prop := ∃ a, x = .ok a

theorem Returns.intro {x : Except ε α} {a : α} (h : x = .ok a) : x.Returns := ⟨a, h⟩

@[simp] theorem returns_ok (a : α) : (Except.ok a : Except ε α).Returns := ⟨a, rfl⟩

@[simp] theorem returns_pure (a : α) : (pure a : Except ε α).Returns := ⟨a, rfl⟩

@[simp] theorem not_returns_error (e : ε) : ¬ (Except.error e : Except ε α).Returns := by
  intro h
  obtain ⟨a, h⟩ := h
  cases h

theorem bind_eq_ok {x : Except ε α} {f : α → Except ε β} {b : β} :
    x >>= f = .ok b ↔ ∃ a, x = .ok a ∧ f a = .ok b := by
  cases x with
  | error e =>
    constructor
    · intro h
      cases h
    · intro h
      obtain ⟨a, h, _⟩ := h
      cases h
  | ok a =>
    constructor
    · intro h
      exact ⟨a, rfl, h⟩
    · intro h
      obtain ⟨a', h, hf⟩ := h
      cases h
      exact hf

theorem map_eq_ok {x : Except ε α} {f : α → β} {b : β} :
    x.map f = .ok b ↔ ∃ a, x = .ok a ∧ f a = b := by
  cases x with
  | error e =>
    refine iff_of_false (fun h => nomatch h) ?_
    rintro ⟨a, h, _⟩
    cases h
  | ok a =>
    constructor
    · intro h
      exact ⟨a, rfl, Except.ok.inj h⟩
    · rintro ⟨a', h, rfl⟩
      cases h
      rfl

theorem returns_bind {x : Except ε α} {f : α → Except ε β} :
    (x >>= f).Returns ↔ ∃ a, x = .ok a ∧ (f a).Returns := by
  constructor
  · intro h
    obtain ⟨b, h⟩ := h
    obtain ⟨a, ha, hb⟩ := bind_eq_ok.mp h
    exact ⟨a, ha, b, hb⟩
  · intro h
    obtain ⟨a, ha, b, hb⟩ := h
    exact ⟨b, bind_eq_ok.mpr ⟨a, ha, hb⟩⟩

/-- When the rest of the computation needs the same of its input whatever the
first part gave, the two parts can be read separately. -/
theorem returns_bind_const {x : Except ε α} {f : α → Except ε β} {P : Prop}
    (h : ∀ a, (f a).Returns ↔ P) : (x >>= f).Returns ↔ x.Returns ∧ P := by
  rw [returns_bind]
  constructor
  · intro hx
    obtain ⟨a, ha, hf⟩ := hx
    exact ⟨⟨a, ha⟩, (h a).mp hf⟩
  · intro hx
    obtain ⟨⟨a, ha⟩, hP⟩ := hx
    exact ⟨a, ha, (h a).mpr hP⟩

theorem returns_bind_and {x : Except ε α} {f : α → Except ε β} {P Q : Prop} (hx : x.Returns ↔ P)
    (hf : ∀ a, (f a).Returns ↔ Q) : (x >>= f).Returns ↔ P ∧ Q :=
  (returns_bind_const hf).trans (and_congr_left' hx)

theorem returns_map {x : Except ε α} {f : α → β} : (f <$> x).Returns ↔ x.Returns := by
  cases x with
  | error e => simp [Returns]
  | ok a => exact iff_of_true ⟨f a, rfl⟩ ⟨a, rfl⟩

theorem mapError_eq_ok {x : Except ε α} {g : ε → ε'} {a : α} :
    x.mapError g = .ok a ↔ x = .ok a := by
  cases x <;> simp [Except.mapError]

theorem returns_mapError {x : Except ε α} {g : ε → ε'} :
    (x.mapError g).Returns ↔ x.Returns :=
  exists_congr fun _ => mapError_eq_ok

/-- A loop over a list returns when each of its rounds does. -/
theorem returns_mapM {f : α → Except ε β} {l : List α} :
    (l.mapM f).Returns ↔ ∀ a ∈ l, (f a).Returns := by
  induction l with
  | nil => simp
  | cons a l ih =>
    rw [List.mapM_cons, List.forall_mem_cons]
    apply returns_bind_const
    intro b
    rw [← ih]
    apply (returns_bind_const (P := True) fun bs => ?_).trans
    · exact and_iff_left trivial
    · simp

/-! ## Computations that may come back empty-handed -/

/-- The computation comes back with a value that is there. -/
def Gives (x : Except ε (Option α)) : Prop := ∃ a, x = .ok (some a)

theorem Gives.returns {x : Except ε (Option α)} (h : x.Gives) : x.Returns := by
  obtain ⟨a, ha⟩ := h
  exact ⟨some a, ha⟩

theorem not_gives_none : ¬ (Except.ok none : Except ε (Option α)).Gives := by
  intro h
  obtain ⟨a, ha⟩ := h
  cases ha

/-- A second computation that is only needed where the first came back
empty-handed. -/
theorem returns_bind_of_some {x : Except ε (Option α)} {f : Option α → Except ε β}
    (h : ∀ a, (f (some a)).Returns) :
    (x >>= f).Returns ↔ x.Returns ∧ (x = .ok none → (f none).Returns) := by
  rw [returns_bind]
  constructor
  · intro hx
    obtain ⟨it, hit, hf⟩ := hx
    refine ⟨⟨it, hit⟩, fun hnone => ?_⟩
    rw [hit] at hnone
    rwa [← Except.ok.inj hnone]
  · intro hx
    obtain ⟨⟨it, hit⟩, hf⟩ := hx
    cases it with
    | none => exact ⟨none, hit, hf hit⟩
    | some a => exact ⟨some a, hit, h a⟩

/-- Going on from a value that is there, and stopping where there is none. -/
theorem run_bind_eq_ok {x : OptionT (Except ε) α} {f : α → OptionT (Except ε) β}
    {it : Option β} : (x >>= f).run = .ok it ↔
      (x.run = .ok none ∧ it = none) ∨ ∃ a, x.run = .ok (some a) ∧ (f a).run = .ok it := by
  rw [OptionT.run_bind, Option.elimM, bind_eq_ok]
  constructor
  · intro h
    obtain ⟨a?, ha, hf⟩ := h
    cases a? with
    | none => exact .inl ⟨ha, (Except.ok.inj hf).symm⟩
    | some a => exact .inr ⟨a, ha, hf⟩
  · intro h
    rcases h with ⟨ha, hit⟩ | ⟨a, ha, hf⟩
    · exact ⟨none, ha, by rw [hit]; rfl⟩
    · exact ⟨some a, ha, hf⟩

theorem returns_run_bind {x : OptionT (Except ε) α} {f : α → OptionT (Except ε) β} :
    (x >>= f).run.Returns ↔
      x.run.Returns ∧ ∀ a, x.run = .ok (some a) → (f a).run.Returns := by
  constructor
  · intro h
    obtain ⟨it, hit⟩ := h
    rcases run_bind_eq_ok.mp hit with ⟨hx, _⟩ | ⟨a, hx, hf⟩
    · exact ⟨⟨none, hx⟩, fun b hb => by rw [hx] at hb; cases hb⟩
    · refine ⟨⟨some a, hx⟩, fun b hb => ?_⟩
      rw [hx] at hb
      cases hb
      exact ⟨it, hf⟩
  · intro h
    obtain ⟨⟨a?, ha⟩, hf⟩ := h
    cases a? with
    | none => exact ⟨none, run_bind_eq_ok.mpr (.inl ⟨ha, rfl⟩)⟩
    | some a =>
      obtain ⟨it, hit⟩ := hf a ha
      exact ⟨it, run_bind_eq_ok.mpr (.inr ⟨a, ha, hit⟩)⟩

theorem gives_run_bind {x : OptionT (Except ε) α} {f : α → OptionT (Except ε) β} :
    (x >>= f).run.Gives ↔ ∃ a, x.run = .ok (some a) ∧ (f a).run.Gives := by
  constructor
  · intro h
    obtain ⟨b, hb⟩ := h
    rcases run_bind_eq_ok.mp hb with ⟨_, hnone⟩ | ⟨a, hx, hf⟩
    · cases hnone
    · exact ⟨a, hx, b, hf⟩
  · intro h
    obtain ⟨a, hx, b, hf⟩ := h
    exact ⟨b, run_bind_eq_ok.mpr (.inr ⟨a, hx, hf⟩)⟩

/-- Where the rest needs the same whatever it goes on from. -/
theorem returns_run_bind_const {x : OptionT (Except ε) α} {f : α → OptionT (Except ε) β}
    {P : Prop} (h : ∀ a, (f a).run.Returns ↔ P) :
    (x >>= f).run.Returns ↔ x.run.Returns ∧ (x.run.Gives → P) := by
  rw [returns_run_bind]
  refine and_congr_right fun _ => ?_
  constructor
  · intro hall hg
    obtain ⟨a, ha⟩ := hg
    exact (h a).mp (hall a ha)
  · intro hP a ha
    exact (h a).mpr (hP ⟨a, ha⟩)

theorem gives_run_bind_const {x : OptionT (Except ε) α} {f : α → OptionT (Except ε) β}
    {P : Prop} (h : ∀ a, (f a).run.Gives ↔ P) : (x >>= f).run.Gives ↔ x.run.Gives ∧ P := by
  rw [gives_run_bind]
  constructor
  · intro hg
    obtain ⟨a, ha, hf⟩ := hg
    exact ⟨⟨a, ha⟩, (h a).mp hf⟩
  · intro hg
    obtain ⟨⟨a, ha⟩, hP⟩ := hg
    exact ⟨a, ha, (h a).mpr hP⟩

theorem returns_run_lift {x : Except ε α} :
    (liftM x : OptionT (Except ε) α).run.Returns ↔ x.Returns := by
  cases x with
  | error e => exact iff_of_false (fun ⟨a, h⟩ => by cases h) (not_returns_error e)
  | ok a => exact iff_of_true ⟨some a, rfl⟩ ⟨a, rfl⟩

theorem gives_run_lift {x : Except ε α} :
    (liftM x : OptionT (Except ε) α).run.Gives ↔ x.Returns := by
  cases x with
  | error e => exact iff_of_false (fun ⟨a, h⟩ => by cases h) (not_returns_error e)
  | ok a => exact iff_of_true ⟨a, rfl⟩ ⟨a, rfl⟩

/-- A lifted computation always comes back with a value that is there. -/
theorem returns_run_lift_bind {x : Except ε α} {f : α → OptionT (Except ε) β} {P : Prop}
    (h : ∀ a, (f a).run.Returns ↔ P) :
    ((liftM x : OptionT (Except ε) α) >>= f).run.Returns ↔ x.Returns ∧ P := by
  rw [returns_run_bind_const h, returns_run_lift, gives_run_lift]
  constructor
  · intro hx
    exact ⟨hx.1, hx.2 hx.1⟩
  · intro hx
    exact ⟨hx.1, fun _ => hx.2⟩

theorem gives_run_lift_bind {x : Except ε α} {f : α → OptionT (Except ε) β} {P : Prop}
    (h : ∀ a, (f a).run.Gives ↔ P) :
    ((liftM x : OptionT (Except ε) α) >>= f).run.Gives ↔ x.Returns ∧ P := by
  rw [gives_run_bind_const h, gives_run_lift]

theorem returns_run_pure (a : α) : (pure a : OptionT (Except ε) α).run.Returns := ⟨some a, rfl⟩

theorem gives_run_pure (a : α) : (pure a : OptionT (Except ε) α).run.Gives := ⟨a, rfl⟩

theorem returns_run_last {x : OptionT (Except ε) α} {g : α → β} :
    (x >>= fun a => pure (g a)).run.Returns ↔ x.run.Returns :=
  (returns_run_bind_const fun _ => iff_of_true (returns_run_pure _) trivial).trans
    (and_iff_left fun _ => trivial)

theorem gives_run_last {x : OptionT (Except ε) α} {g : α → β} :
    (x >>= fun a => pure (g a)).run.Gives ↔ x.run.Gives :=
  (gives_run_bind_const fun _ => iff_of_true (gives_run_pure _) trivial).trans
    (and_iff_left trivial)

end Except
