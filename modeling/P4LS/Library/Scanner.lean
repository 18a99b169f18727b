import P4LS.Library.Outcome

/-!
# Rules that act while they read

A rule reads the front of a text.  Its actions change a state as soon as their part is read, and
what they did is not undone when the rule does not match in the end.  A computation that fails ends
every rule around it.  This is how parser combinators are documented: an alternative is tried only
where the one before it does not match, and a repetition goes on as long as its rule matches.

The lemmas come in two kinds: what a rule does when the result of its parts is known, and what the
parts have done when the rule has a result.
-/

/-- What is left of the text, if the rule matches, and the state behind the actions that ran. -/
abbrev Rule (α σ ε : Type) := List α → σ → Except ε (Option (List α) × σ)

namespace Rule

variable {α σ ε : Type}

/-- A reader without actions. -/
def ofReader (f : List α → Option (List α)) : Rule α σ ε := fun x s => .ok (f x, s)

/-- One element of a class. -/
def one (p : α → Bool) : Rule α σ ε := ofReader fun x =>
  match x with
  | [] => none
  | c :: x => if p c then some x else none

def nothing : Rule α σ ε := fun x s => .ok (some x, s)

def andThen (first second : Rule α σ ε) : Rule α σ ε := fun x s =>
  match first x s with
  | .error e => .error e
  | .ok (none, s) => .ok (none, s)
  | .ok (some rest, s) => second rest s

/-- The second rule, from the same place, if the first does not match. -/
def orElse (first second : Rule α σ ε) : Rule α σ ε := fun x s =>
  match first x s with
  | .error e => .error e
  | .ok (none, s) => second x s
  | .ok (some rest, s) => .ok (some rest, s)

def optional (rule : Rule α σ ε) : Rule α σ ε := orElse rule nothing

/-- `act` runs on what the rule read. -/
def action (act : List α → σ → Except ε σ) (rule : Rule α σ ε) : Rule α σ ε := fun x s =>
  match rule x s with
  | .error e => .error e
  | .ok (none, s) => .ok (none, s)
  | .ok (some rest, s) => (act (x.take (x.length - rest.length)) s).map fun s => (some rest, s)

/-- The rule as often as it matches; `stuck` is the end of the fuel. -/
def many (stuck : ε) (rule : Rule α σ ε) : ℕ → Rule α σ ε
  | 0, _, _ => .error stuck
  | n + 1, x, s =>
    match rule x s with
    | .error e => .error e
    | .ok (none, s) => .ok (some x, s)
    | .ok (some rest, s) => many stuck rule n rest s

variable {rule first second : Rule α σ ε} {act : List α → σ → Except ε σ} {stuck : ε}
  {x u rest : List α} {s s' : σ} {n : ℕ}

/-! ## From the parts to the rule -/

theorem one_cons {p : α → Bool} {c : α} (h : p c = true) :
    one p (c :: x) s = (.ok (some x, s) : Except ε _) := by
  rw [one, ofReader]
  simp only [h, if_true]

theorem one_miss {p : α → Bool} (h : ∀ c ∈ x.head?, p c = false) :
    one p x s = (.ok (none, s) : Except ε _) := by
  cases x with
  | nil => rfl
  | cons c x =>
    rw [one, ofReader]
    simp only [h c rfl, Bool.false_eq_true, if_false]

theorem andThen_of_hit (h : first x s = .ok (some rest, s')) :
    andThen first second x s = second rest s' := by
  rw [andThen, h]

theorem andThen_of_miss (h : first x s = .ok (none, s')) :
    andThen first second x s = .ok (none, s') := by
  rw [andThen, h]

theorem orElse_of_hit (h : first x s = .ok (some rest, s')) :
    orElse first second x s = .ok (some rest, s') := by
  rw [orElse, h]

theorem orElse_of_miss (h : first x s = .ok (none, s')) :
    orElse first second x s = second x s' := by
  rw [orElse, h]

theorem optional_of_hit (h : rule x s = .ok (some rest, s')) :
    optional rule x s = .ok (some rest, s') :=
  orElse_of_hit h

theorem optional_of_miss (h : rule x s = .ok (none, s')) :
    optional rule x s = .ok (some x, s') :=
  orElse_of_miss h

theorem action_of_hit (h : rule (u ++ rest) s = .ok (some rest, s')) :
    action act rule (u ++ rest) s = (act u s').map fun s => (some rest, s) := by
  rw [action, h]
  simp only [List.length_append, Nat.add_sub_cancel, List.take_left]

theorem action_of_miss (h : rule x s = .ok (none, s')) :
    action act rule x s = .ok (none, s') := by
  rw [action, h]

theorem many_of_hit (h : rule x s = .ok (some rest, s')) :
    many stuck rule (n + 1) x s = many stuck rule n rest s' := by
  rw [many, h]

theorem many_of_miss (h : rule x s = .ok (none, s')) :
    many stuck rule (n + 1) x s = .ok (some x, s') := by
  rw [many, h]

theorem orElse_of_never_miss (h : ∀ s', first x s ≠ .ok (none, s')) :
    orElse first second x s = first x s := by
  rw [orElse]
  split
  · rename_i heq
    exact heq.symm
  · rename_i s₁ heq
    exact absurd heq (h s₁)
  · rename_i heq
    exact heq.symm

variable {more : Rule α σ ε}

/-- An alternative is taken where it reads, if what follows it always matches. -/
theorem alternative_of_hit (h : rule (u ++ rest) s = .ok (some rest, s')) {s₁ : σ}
    (hact : act u s' = .ok s₁) (hsecond : ∀ x s s', second x s ≠ .ok (none, s')) :
    orElse (andThen (action act rule) second) more (u ++ rest) s = second rest s₁ := by
  have haction : action act rule (u ++ rest) s = .ok (some rest, s₁) := by
    rw [action_of_hit h, hact]
    rfl
  have hfirst : andThen (action act rule) second (u ++ rest) s = second rest s₁ :=
    andThen_of_hit haction
  rw [orElse_of_never_miss (by
    intro s₂
    rw [hfirst]
    exact hsecond _ _ _), hfirst]

theorem alternative_of_miss (h : rule x s = .ok (none, s)) :
    orElse (andThen (action act rule) second) more x s = more x s :=
  orElse_of_miss (andThen_of_miss (action_of_miss h))

/-! ## From the rule to the parts -/

variable {result : Option (List α)}

theorem one_eq_ok {p : α → Bool} (h : one p x s = (.ok (some rest, s') : Except ε _)) :
    ∃ c, x = c :: rest ∧ p c = true ∧ s' = s := by
  cases x with
  | nil => cases h
  | cons c x =>
    cases hc : p c with
    | true =>
      rw [one_cons hc] at h
      cases h
      exact ⟨c, rfl, hc, rfl⟩
    | false =>
      rw [one_miss (by intro d hd; cases hd; exact hc)] at h
      cases h

/-- A sequence that matches has both parts matched. -/
theorem andThen_eq_hit (h : andThen first second x s = .ok (some rest, s')) :
    ∃ rest₁ s₁, first x s = .ok (some rest₁, s₁) ∧ second rest₁ s₁ = .ok (some rest, s') := by
  rw [andThen] at h
  split at h
  · cases h
  · cases h
  · rename_i rest₁ s₁ hfirst
    exact ⟨rest₁, s₁, hfirst, h⟩

theorem andThen_eq_miss (h : andThen first second x s = .ok (none, s')) :
    first x s = .ok (none, s') ∨
      ∃ rest₁ s₁, first x s = .ok (some rest₁, s₁) ∧ second rest₁ s₁ = .ok (none, s') := by
  rw [andThen] at h
  split at h
  · cases h
  · rename_i hfirst
    cases h
    exact .inl hfirst
  · rename_i rest₁ s₁ hfirst
    exact .inr ⟨rest₁, s₁, hfirst, h⟩

theorem orElse_eq_ok (h : orElse first second x s = .ok (result, s')) :
    first x s = .ok (result, s') ∧ result ≠ none ∨
      ∃ s₁, first x s = .ok (none, s₁) ∧ second x s₁ = .ok (result, s') := by
  rw [orElse] at h
  split at h
  · cases h
  · rename_i s₁ hfirst
    exact .inr ⟨s₁, hfirst, h⟩
  · rename_i rest s₁ hfirst
    cases h
    exact .inl ⟨hfirst, Option.some_ne_none rest⟩

theorem orElse_eq_miss (h : orElse first second x s = .ok (none, s')) :
    ∃ s₁, first x s = .ok (none, s₁) ∧ second x s₁ = .ok (none, s') := by
  rcases orElse_eq_ok h with ⟨_, hne⟩ | hmiss
  · exact absurd rfl hne
  · exact hmiss

theorem optional_eq_ok (h : optional rule x s = .ok (result, s')) :
    (∃ rest, result = some rest ∧ rule x s = .ok (some rest, s')) ∨
      result = some x ∧ rule x s = .ok (none, s') := by
  rcases orElse_eq_ok h with ⟨hhit, hne⟩ | ⟨s₁, hmiss, hnothing⟩
  · obtain ⟨rest, rfl⟩ := Option.ne_none_iff_exists'.mp hne
    exact .inl ⟨rest, rfl, hhit⟩
  · cases hnothing
    exact .inr ⟨rfl, hmiss⟩

theorem action_eq_hit (h : action act rule x s = .ok (some rest, s')) :
    ∃ s₁, rule x s = .ok (some rest, s₁) ∧
      act (x.take (x.length - rest.length)) s₁ = .ok s' := by
  rw [action] at h
  split at h
  · cases h
  · cases h
  · rename_i rest₁ s₁ hrule
    obtain ⟨s₂, hact, heq⟩ := Except.map_eq_ok.mp h
    cases heq
    exact ⟨s₁, hrule, hact⟩

theorem action_eq_miss (h : action act rule x s = .ok (none, s')) :
    rule x s = .ok (none, s') := by
  rw [action] at h
  split at h
  · cases h
  · rename_i hrule
    cases h
    exact hrule
  · obtain ⟨s₂, _, heq⟩ := Except.map_eq_ok.mp h
    cases heq

/-- What a rule keeps as long as it matches is kept to the place where it does not match. -/
theorem many_induction (motive : List α → σ → Prop)
    (hstep : ∀ x s rest s', motive x s → rule x s = .ok (some rest, s') → motive rest s')
    (h : many stuck rule n x s = .ok (result, s')) (hstart : motive x s) :
    ∃ rest s₁, result = some rest ∧ motive rest s₁ ∧ rule rest s₁ = .ok (none, s') := by
  induction n generalizing x s with
  | zero => cases h
  | succ n ih =>
    rw [many] at h
    split at h
    · cases h
    · rename_i s₁ hmiss
      cases h
      exact ⟨x, s, rfl, hstart, hmiss⟩
    · rename_i rest s₁ hhit
      exact ih h (hstep x s rest s₁ hstart hhit)

/-! ## Rules that leave the state as it is -/

/-- The rule has no actions. -/
def Inert (rule : Rule α σ ε) : Prop :=
  ∀ x s result s', rule x s = .ok (result, s') → s' = s

theorem Inert.ofReader (f : List α → Option (List α)) : (ofReader f : Rule α σ ε).Inert := by
  intro x s result s' h
  cases h
  rfl

theorem Inert.nothing : (nothing : Rule α σ ε).Inert := by
  intro x s result s' h
  cases h
  rfl

theorem Inert.andThen (hfirst : first.Inert) (hsecond : second.Inert) :
    (andThen first second).Inert := by
  intro x s result s' h
  cases result with
  | none =>
    rcases andThen_eq_miss h with hmiss | ⟨rest, s₁, hhit, hmiss⟩
    · exact hfirst _ _ _ _ hmiss
    · rw [hsecond _ _ _ _ hmiss, hfirst _ _ _ _ hhit]
  | some rest =>
    obtain ⟨rest₁, s₁, hhit, hhit'⟩ := andThen_eq_hit h
    rw [hsecond _ _ _ _ hhit', hfirst _ _ _ _ hhit]

theorem Inert.orElse (hfirst : first.Inert) (hsecond : second.Inert) :
    (orElse first second).Inert := by
  intro x s result s' h
  rcases orElse_eq_ok h with ⟨hhit, _⟩ | ⟨s₁, hmiss, hsec⟩
  · exact hfirst _ _ _ _ hhit
  · rw [hsecond _ _ _ _ hsec, hfirst _ _ _ _ hmiss]

theorem Inert.optional (h : rule.Inert) : (optional rule).Inert := h.orElse .nothing

theorem Inert.many (h : rule.Inert) (stuck : ε) (n : ℕ) : (many stuck rule n).Inert := by
  intro x s result s' hmany
  obtain ⟨rest, s₁, _, hs₁, hmiss⟩ :=
    many_induction (fun _ s₁ => s₁ = s) (fun x s₁ rest s₂ hs₁ hhit => by
      rw [h _ _ _ _ hhit, hs₁]) hmany rfl
  rw [h _ _ _ _ hmiss, hs₁]

/-! ## Rules that read the front of the text -/

/-- What is left is the end of the text. -/
def Reads (rule : Rule α σ ε) : Prop :=
  ∀ x s rest s', rule x s = .ok (some rest, s') → rest <:+ x

theorem Reads.ofReader {f : List α → Option (List α)} (h : ∀ x rest, f x = some rest → rest <:+ x) :
    (ofReader f : Rule α σ ε).Reads := by
  intro x s rest s' heq
  cases heq' : f x with
  | none =>
    rw [Rule.ofReader, heq'] at heq
    cases heq
  | some rest' =>
    rw [Rule.ofReader, heq'] at heq
    cases heq
    exact h x rest heq'

theorem Reads.one (p : α → Bool) : (one p : Rule α σ ε).Reads := by
  intro x s rest s' h
  obtain ⟨c, rfl, _, _⟩ := one_eq_ok h
  exact List.suffix_cons c rest

theorem Reads.nothing : (nothing : Rule α σ ε).Reads := by
  intro x s rest s' h
  cases h
  exact List.suffix_rfl

theorem Reads.andThen (hfirst : first.Reads) (hsecond : second.Reads) :
    (andThen first second).Reads := by
  intro x s rest s' h
  obtain ⟨rest₁, s₁, hhit, hhit'⟩ := andThen_eq_hit h
  exact (hsecond _ _ _ _ hhit').trans (hfirst _ _ _ _ hhit)

theorem Reads.orElse (hfirst : first.Reads) (hsecond : second.Reads) :
    (orElse first second).Reads := by
  intro x s rest s' h
  rcases orElse_eq_ok h with ⟨hhit, _⟩ | ⟨s₁, _, hhit⟩
  · exact hfirst _ _ _ _ hhit
  · exact hsecond _ _ _ _ hhit

theorem Reads.optional (h : rule.Reads) : (optional rule).Reads := h.orElse .nothing

theorem Reads.many (h : rule.Reads) (stuck : ε) (n : ℕ) : (many stuck rule n).Reads := by
  intro x s rest s' hmany
  obtain ⟨rest', s₁, heq, hsuffix, _⟩ :=
    many_induction (fun y _ => y <:+ x) (fun y s₁ rest s₂ hy hhit =>
      (h _ _ _ _ hhit).trans hy) hmany List.suffix_rfl
  cases heq
  exact hsuffix

/-- What an action runs on is what the rule read. -/
theorem Reads.action_eq_hit (h : rule.Reads)
    (hact : Rule.action act rule x s = .ok (some rest, s')) :
    ∃ u s₁, x = u ++ rest ∧ rule x s = .ok (some rest, s₁) ∧ act u s₁ = .ok s' := by
  obtain ⟨s₁, hhit, hrun⟩ := Rule.action_eq_hit hact
  obtain ⟨u, rfl⟩ := h _ _ _ _ hhit
  rw [List.length_append, Nat.add_sub_cancel, List.take_left] at hrun
  exact ⟨u, s₁, rfl, hhit, hrun⟩

/-- An alternative that acts on what it reads, before a rule that always matches, is taken where it
reads, and nothing has happened where it does not. -/
theorem alternative_eq_ok (hinert : rule.Inert) (hreads : rule.Reads)
    (hsecond : ∀ x s s', second x s ≠ .ok (none, s'))
    (h : orElse (andThen (action act rule) second) more x s = .ok (result, s')) :
    (∃ u rest s₁, x = u ++ rest ∧ rule x s = .ok (some rest, s) ∧ act u s = .ok s₁ ∧
        second rest s₁ = .ok (result, s')) ∨
      more x s = .ok (result, s') := by
  rcases orElse_eq_ok h with ⟨hhit, hne⟩ | ⟨s₁, hmiss, hmore⟩
  · obtain ⟨rest, rfl⟩ := Option.ne_none_iff_exists'.mp hne
    obtain ⟨rest₁, s₂, haction, hrest⟩ := andThen_eq_hit hhit
    obtain ⟨u, s₁, rfl, hrule, hact⟩ := hreads.action_eq_hit haction
    have hs₁ := hinert _ _ _ _ hrule
    subst hs₁
    exact .inl ⟨u, rest₁, s₂, rfl, hrule, hact, hrest⟩
  · rcases andThen_eq_miss hmiss with haction | ⟨rest₁, s₂, _, hnone⟩
    · have hs₁ := hinert _ _ _ _ (action_eq_miss haction)
      subst hs₁
      exact .inr hmore
    · exact absurd hnone (hsecond _ _ _)

end Rule
