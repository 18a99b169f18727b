import Mathlib.Data.List.Infix

/-!
# The longest match of an automaton

A scan follows the steps of a partial automaton through a text until there is no step.  It keeps
the last state that accepts with what was left there, and the letters it went through.  So it
finds the longest nonempty prefix that the automaton accepts, and the letters are the longest
prefix that it can follow.
-/

namespace LongestMatch

variable {σ α β : Type}

/-- No prefix of the text for which `P` holds is longer. -/
structure IsLongest (P : List α → Prop) (x u : List α) : Prop where
  isPrefix : u <+: x
  holds : P u
  longest : ∀ v, v <+: x → P v → v.length ≤ u.length

theorem IsLongest.unique {P : List α → Prop} {x u v : List α} (hu : IsLongest P x u)
    (hv : IsLongest P x v) : u = v := by
  have hlength : u.length = v.length :=
    Nat.le_antisymm (hv.longest u hu.isPrefix hu.holds) (hu.longest v hv.isPrefix hv.holds)
  exact
    (List.prefix_of_prefix_length_le hu.isPrefix hv.isPrefix (Nat.le_of_eq hlength)).eq_of_length
    hlength

theorem IsLongest.congr {P Q : List α → Prop} {x u : List α} (h : ∀ v, v <+: x → (P v ↔ Q v))
    (hu : IsLongest P x u) : IsLongest Q x u where
  isPrefix := hu.isPrefix
  holds := (h u hu.isPrefix).mp hu.holds
  longest v hv hQ := hu.longest v hv ((h v hv).mpr hQ)

theorem IsLongest.cons {P : List α → Prop} {a : α} {x u : List α}
    (h : IsLongest (fun v => P (a :: v)) x u) : IsLongest P (a :: x) (a :: u) where
  isPrefix := List.cons_prefix_cons.mpr ⟨rfl, h.isPrefix⟩
  holds := h.holds
  longest v hv hP := by
    rcases List.prefix_cons_iff.mp hv with rfl | ⟨w, rfl, hw⟩
    · exact Nat.zero_le _
    · exact Nat.succ_le_succ (h.longest w hw hP)

variable (step : σ → α → Option σ) (accept : σ → Option β)

/-- Where a text leads. -/
def after (s : σ) (x : List α) : Option σ := x.foldlM step s

def scan : σ → List α → Option (σ × List α) → List α → Option (σ × List α) × List α
  | _, [], last, token => (last, token)
  | s, a :: x, last, token =>
    match step s a with
    | none => (last, token)
    | some t => scan t x (if (accept t).isSome then some (t, x) else last) (token ++ [a])

/-- The automaton accepts a nonempty text. -/
def Accepted (s : σ) (u : List α) : Prop := u ≠ [] ∧ ∃ t ∈ after step s u, (accept t).isSome

variable {step accept}

@[simp] theorem after_nil (s : σ) : after step s [] = some s := rfl

theorem after_cons (s : σ) (a : α) (x : List α) :
    after step s (a :: x) = (step s a).bind fun t => after step t x := rfl

variable (step accept) in
/-- The letters gone through are the longest prefix that can be followed. -/
theorem scan_token (s : σ) (x : List α) (last : Option (σ × List α)) (token : List α) :
    ∃ v, (scan step accept s x last token).2 = token ++ v ∧
      IsLongest (fun v => (after step s v).isSome) x v := by
  induction x generalizing s last token with
  | nil =>
    refine ⟨[], (List.append_nil token).symm, List.prefix_refl [], rfl, fun v hv _ => ?_⟩
    rw [List.prefix_nil.mp hv]
  | cons a x ih =>
    rw [scan]
    cases hstep : step s a with
    | none =>
      refine ⟨[], (List.append_nil token).symm, List.nil_prefix, rfl, fun v hv hsome => ?_⟩
      rcases List.prefix_cons_iff.mp hv with rfl | ⟨w, rfl, _⟩
      · exact Nat.le_refl 0
      · rw [after_cons, hstep] at hsome
        cases hsome
    | some t =>
      obtain ⟨v, htoken, hlongest⟩ :=
        ih t (if (accept t).isSome then some (t, x) else last) (token ++ [a])
      refine ⟨a :: v, by rw [htoken, List.append_assoc, List.singleton_append], .cons ?_⟩
      refine hlongest.congr fun w _ => ?_
      rw [after_cons, hstep, Option.bind_some]

theorem accepted_cons {s t : σ} {a : α} (hstep : step s a = some t) (u : List α) :
    Accepted step accept s (a :: u) ↔ ∃ t' ∈ after step t u, (accept t').isSome := by
  rw [Accepted, after_cons, hstep, Option.bind_some]
  exact and_iff_right (List.cons_ne_nil a u)

variable (step accept) in
/-- The state kept is that of the longest nonempty prefix accepted, with what is left behind it;
if there is none, it is the one kept before. -/
theorem scan_last (s : σ) (x : List α) (last : Option (σ × List α)) (token : List α) :
    (∃ u t rest, IsLongest (Accepted step accept s) x u ∧ after step s u = some t ∧
        x = u ++ rest ∧ (scan step accept s x last token).1 = some (t, rest)) ∨
      (∀ u, u <+: x → ¬Accepted step accept s u) ∧
        (scan step accept s x last token).1 = last := by
  induction x generalizing s last token with
  | nil =>
    refine .inr ⟨fun u hu hacc => hacc.1 (List.prefix_nil.mp hu), rfl⟩
  | cons a x ih =>
    rw [scan]
    cases hstep : step s a with
    | none =>
      refine .inr ⟨fun u hu hacc => ?_, rfl⟩
      rcases List.prefix_cons_iff.mp hu with rfl | ⟨w, rfl, _⟩
      · exact hacc.1 rfl
      · obtain ⟨_, t, ht, _⟩ := hacc
        rw [after_cons, hstep] at ht
        exact absurd ht (Option.not_mem_none t)
    | some t =>
      dsimp only
      rcases ih t (if (accept t).isSome then some (t, x) else last) (token ++ [a]) with
        ⟨u, t', rest, hlongest, ht', rfl, hscan⟩ | ⟨hnone, hscan⟩
      · refine .inl ⟨a :: u, t', rest, .cons ⟨hlongest.isPrefix, ?_, fun v hv hacc => ?_⟩, ?_, rfl,
          hscan⟩
        · exact (accepted_cons hstep u).mpr hlongest.holds.2
        · by_cases hv0 : v = []
          · rw [hv0]
            exact Nat.zero_le _
          · exact hlongest.longest v hv ⟨hv0, (accepted_cons hstep v).mp hacc⟩
        · rw [after_cons, hstep, Option.bind_some, ht']
      · by_cases haccept : (accept t).isSome = true
        · rw [if_pos haccept] at hscan
          rw [if_pos haccept]
          refine .inl ⟨[a], t, x, .cons ⟨List.nil_prefix, ?_, fun v hv hacc => ?_⟩, ?_, rfl, hscan⟩
          · exact (accepted_cons hstep []).mpr ⟨t, rfl, haccept⟩
          · by_cases hv0 : v = []
            · rw [hv0]
            · exact absurd ⟨hv0, (accepted_cons hstep v).mp hacc⟩ (hnone v hv)
          · rw [after_cons, hstep, Option.bind_some, after_nil]
        · rw [if_neg haccept] at hscan
          rw [if_neg haccept]
          refine .inr ⟨fun u hu hacc => ?_, hscan⟩
          rcases List.prefix_cons_iff.mp hu with rfl | ⟨w, rfl, hw⟩
          · exact hacc.1 rfl
          · rcases eq_or_ne w [] with rfl | hw0
            · obtain ⟨t', ht', hacc'⟩ := (accepted_cons hstep []).mp hacc
              cases ht'
              exact haccept hacc'
            · exact hnone w hw ⟨hw0, (accepted_cons hstep w).mp hacc⟩

end LongestMatch
