import Mathlib.Data.Finset.Card
import Mathlib.Data.List.Nodup

/-!
# Numbering the states that steps lead to

A worklist numbers states in the order in which they are found.  For each of them it makes a row
with the number of the state every letter leads to, where a state not found before gets the next
number.  Among finitely many states the worklist ends, and then its table is the step function on
the numbers.
-/

namespace Numbering

variable {σ α : Type} [DecidableEq σ] (step : σ → α → Option σ)

/-- The states found so far, with a state added if it is new. -/
def found (states : List σ) (t : σ) : List σ := if t ∈ states then states else states ++ [t]

/-- The states found and the row so far after one more letter. -/
def visit (s : σ) (sofar : List σ × List (Option ℕ)) (a : α) : List σ × List (Option ℕ) :=
  match step s a with
  | none => (sofar.1, sofar.2 ++ [none])
  | some t => (found sofar.1 t, sofar.2 ++ [some ((found sofar.1 t).idxOf t)])

/-- The worklist: the first state without a row gets one. -/
def explore (letters : List α) : ℕ → List σ → List (List (Option ℕ)) →
    Option (List σ × List (List (Option ℕ)))
  | fuel, states, rows =>
    match states[rows.length]? with
    | none => some (states, rows)
    | some s =>
      match fuel with
      | 0 => none
      | fuel + 1 =>
        let visited := letters.foldl (visit step s) (states, [])
        explore letters fuel visited.1 (rows ++ [visited.2])

/-- The row of a state among the states found: where each letter leads. -/
def rowOf (letters : List α) (states : List σ) (s : σ) : List (Option ℕ) :=
  letters.map fun a => (step s a).map states.idxOf

/-! ## The states found -/

variable {step}

theorem prefix_found (states : List σ) (t : σ) : states <+: found states t := by
  rw [found]
  by_cases h : t ∈ states
  · rw [if_pos h]
  · rw [if_neg h]
    exact List.prefix_append states [t]

theorem mem_found_self (states : List σ) (t : σ) : t ∈ found states t := by
  rw [found]
  by_cases h : t ∈ states
  · rw [if_pos h]
    exact h
  · rw [if_neg h]
    exact List.mem_append_right _ (List.mem_singleton_self t)

theorem nodup_found {states : List σ} (h : states.Nodup) (t : σ) : (found states t).Nodup := by
  rw [found]
  by_cases ht : t ∈ states
  · rwa [if_pos ht]
  · rw [if_neg ht]
    exact List.nodup_append'.mpr ⟨h, List.nodup_singleton t, List.disjoint_singleton.mpr ht⟩

theorem forall_mem_found {P : σ → Prop} {states : List σ} {t : σ} (h : ∀ s ∈ states, P s)
    (ht : P t) : ∀ s ∈ found states t, P s := by
  intro s hs
  rw [found] at hs
  by_cases hmem : t ∈ states
  · rw [if_pos hmem] at hs
    exact h s hs
  · rw [if_neg hmem] at hs
    rcases List.mem_append.mp hs with hs | hs
    · exact h s hs
    · exact List.mem_singleton.mp hs ▸ ht

theorem prefix_visit (step : σ → α → Option σ) (s : σ) (sofar : List σ × List (Option ℕ)) (a : α) :
    sofar.1 <+: (visit step s sofar a).1 := by
  rw [visit]
  cases step s a with
  | none => exact List.prefix_refl sofar.1
  | some t => exact prefix_found sofar.1 t

theorem length_visit (step : σ → α → Option σ) (s : σ) (sofar : List σ × List (Option ℕ)) (a : α) :
    (visit step s sofar a).2.length = sofar.2.length + 1 := by
  rw [visit]
  cases step s a with
  | none => exact List.length_append
  | some t => exact List.length_append

/-- A state keeps its number when more states are found. -/
theorem idxOf_of_extended {states more : List σ} (h : states <+: more) {s : σ} (hs : s ∈ states) :
    more.idxOf s = states.idxOf s := by
  obtain ⟨rest, rfl⟩ := h
  exact List.idxOf_append_of_mem hs

theorem rowOf_of_extended {states more : List σ} (h : states <+: more) {letters : List α} {s : σ}
    (hs : ∀ a ∈ letters, ∀ t ∈ step s a, t ∈ states) :
    rowOf step letters more s = rowOf step letters states s := by
  refine List.map_congr_left fun a ha => ?_
  cases hstep : step s a with
  | none => rfl
  | some t => rw [Option.map_some, Option.map_some, idxOf_of_extended h (hs a ha t hstep)]

/-- Going through the letters of a state finds where they lead and makes its row. -/
theorem foldl_visit (s : σ) (letters done : List α) (states : List σ)
    (hdone : ∀ a ∈ done, ∀ t ∈ step s a, t ∈ states) :
    let visited := letters.foldl (visit step s) (states, rowOf step done states s)
    states <+: visited.1 ∧ visited.2 = rowOf step (done ++ letters) visited.1 s ∧
      ∀ a ∈ done ++ letters, ∀ t ∈ step s a, t ∈ visited.1 := by
  induction letters generalizing done states with
  | nil =>
    rw [List.append_nil]
    exact ⟨List.prefix_refl states, rfl, hdone⟩
  | cons a letters ih =>
    rw [List.foldl_cons, List.append_cons]
    have hall : ∀ more : List σ, states <+: more → (∀ t ∈ step s a, t ∈ more) →
        ∀ b ∈ done ++ [a], ∀ t ∈ step s b, t ∈ more := by
      intro more hmore ha b hb t ht
      rcases List.mem_append.mp hb with hb | hb
      · exact hmore.subset (hdone b hb t ht)
      · rw [List.mem_singleton.mp hb] at ht
        exact ha t ht
    have hrow : ∀ more : List σ, states <+: more →
        rowOf step (done ++ [a]) more s =
          rowOf step done states s ++ [(step s a).map more.idxOf] := by
      intro more hmore
      rw [← rowOf_of_extended hmore hdone, rowOf, List.map_append]
      rfl
    cases hstep : step s a with
    | none =>
      have hvisit : visit step s (states, rowOf step done states s) a =
          (states, rowOf step (done ++ [a]) states s) := by
        rw [visit, hstep, hrow states (List.prefix_refl states), hstep, Option.map_none]
      rw [hvisit]
      refine ih (done ++ [a]) states (hall states (List.prefix_refl states) fun t ht => ?_)
      rw [hstep] at ht
      exact absurd ht (Option.not_mem_none t)
    | some t =>
      have hmore := prefix_found states t
      have hvisit : visit step s (states, rowOf step done states s) a =
          (found states t, rowOf step (done ++ [a]) (found states t) s) := by
        rw [visit, hstep, hrow (found states t) hmore, hstep, Option.map_some]
      have hnew : ∀ u ∈ step s a, u ∈ found states t := by
        intro u hu
        rw [hstep] at hu
        cases hu
        exact mem_found_self states t
      rw [hvisit]
      obtain ⟨hpre, hrest⟩ := ih (done ++ [a]) (found states t)
        (hall (found states t) hmore hnew)
      exact ⟨hmore.trans hpre, hrest⟩

/-- A row begun with no letter: it is the row of the state when all letters are read. -/
theorem foldl_visit_nil (step : σ → α → Option σ) (letters : List α) (states : List σ) (s : σ) :
    let visited := letters.foldl (visit step s) (states, [])
    states <+: visited.1 ∧ visited.2 = rowOf step letters visited.1 s ∧
      ∀ a ∈ letters, ∀ t ∈ step s a, t ∈ visited.1 :=
  foldl_visit s letters [] states fun _ ha => absurd ha List.not_mem_nil

/-- What holds of the states found and of every state a step leads to holds of the states found
later. -/
theorem foldl_visit_keeps {P : List σ → Prop} (s : σ)
    (hfound : ∀ states a t, P states → step s a = some t → P (found states t))
    (letters : List α) (sofar : List σ × List (Option ℕ)) (h : P sofar.1) :
    P (letters.foldl (visit step s) sofar).1 := by
  induction letters generalizing sofar with
  | nil => exact h
  | cons a letters ih =>
    rw [List.foldl_cons]
    refine ih _ ?_
    cases hstep : step s a with
    | none =>
      rw [visit, hstep]
      exact h
    | some t =>
      rw [visit, hstep]
      exact hfound sofar.1 a t h hstep

/-! ## The worklist -/

/-- The states are told apart, and those with a row have the one of the step function. -/
structure Numbered (step : σ → α → Option σ) (letters : List α) (states : List σ)
    (rows : List (List (Option ℕ))) : Prop where
  nodup : states.Nodup
  length : rows.length ≤ states.length
  leads : ∀ T s, T < rows.length → states[T]? = some s →
    ∀ a ∈ letters, ∀ t ∈ step s a, t ∈ states
  row : ∀ T s, T < rows.length → states[T]? = some s →
    rows[T]? = some (rowOf step letters states s)

theorem numbered_start (step : σ → α → Option σ) (letters : List α) (s : σ) :
    Numbered step letters [s] [] where
  nodup := List.nodup_singleton s
  length := Nat.zero_le 1
  leads T _ hT := absurd hT (Nat.not_lt_zero T)
  row T _ hT := absurd hT (Nat.not_lt_zero T)

omit [DecidableEq σ] in
theorem getElem?_of_extended {states more : List σ} (h : states <+: more) {T : ℕ} {s : σ}
    (hT : T < states.length) (hs : more[T]? = some s) : states[T]? = some s := by
  obtain ⟨rest, rfl⟩ := h
  rwa [List.getElem?_append_left hT] at hs

/-- One more row keeps the table in agreement with the steps. -/
theorem Numbered.next {letters : List α} {states : List σ} {rows : List (List (Option ℕ))}
    (h : Numbered step letters states rows) {s : σ} (hs : states[rows.length]? = some s) :
    Numbered step letters (letters.foldl (visit step s) (states, [])).1
      (rows ++ [(letters.foldl (visit step s) (states, [])).2]) := by
  have hnodup : (letters.foldl (visit step s) (states, [])).1.Nodup :=
    foldl_visit_keeps (P := List.Nodup) s (fun _ _ t hn _ => nodup_found hn t) letters
      (states, []) h.nodup
  obtain ⟨hpre, hrow, hleads⟩ := foldl_visit_nil step letters states s
  have hlt : rows.length < states.length := (List.getElem?_eq_some_iff.mp hs).1
  have hle := hpre.length_le
  generalize letters.foldl (visit step s) (states, []) = visited at hnodup hpre hrow hleads hle
  have hcases : ∀ T u, T < (rows ++ [visited.2]).length → visited.1[T]? = some u →
      T < rows.length ∧ states[T]? = some u ∨ T = rows.length ∧ u = s := by
    intro T u hT hu
    rw [List.length_append, List.length_singleton] at hT
    have hstate := getElem?_of_extended hpre (by omega) hu
    rcases Nat.lt_or_ge T rows.length with hlt' | hge
    · exact .inl ⟨hlt', hstate⟩
    · have heq : T = rows.length := by omega
      rw [heq, hs] at hstate
      exact .inr ⟨heq, (Option.some.inj hstate).symm⟩
  refine ⟨hnodup, ?_, fun T u hT hu => ?_, fun T u hT hu => ?_⟩
  · rw [List.length_append, List.length_singleton]
    omega
  · rcases hcases T u hT hu with hold | hnew
    · exact fun a ha t ht => hpre.subset (h.leads T u hold.1 hold.2 a ha t ht)
    · rw [hnew.2]
      exact hleads
  · rcases hcases T u hT hu with hold | hnew
    · rw [List.getElem?_append_left hold.1, h.row T u hold.1 hold.2,
        rowOf_of_extended hpre (h.leads T u hold.1 hold.2)]
    · rw [hnew.1, hnew.2, List.getElem?_concat_length, hrow]

/-- Where the worklist ends every state found has its row, and the states are those it began with
and more. -/
theorem explore_spec {letters : List α} {fuel : ℕ} {states : List σ}
    {rows : List (List (Option ℕ))} {result : List σ × List (List (Option ℕ))}
    (h : Numbered step letters states rows)
    (hresult : explore step letters fuel states rows = some result) :
    states <+: result.1 ∧ result.2.length = result.1.length ∧
      Numbered step letters result.1 result.2 := by
  induction fuel generalizing states rows with
  | zero =>
    rw [explore] at hresult
    cases hs : states[rows.length]? with
    | none =>
      rw [hs] at hresult
      cases hresult
      exact ⟨List.prefix_refl states, Nat.le_antisymm h.length (List.getElem?_eq_none_iff.mp hs), h⟩
    | some s =>
      rw [hs] at hresult
      cases hresult
  | succ fuel ih =>
    rw [explore] at hresult
    cases hs : states[rows.length]? with
    | none =>
      rw [hs] at hresult
      cases hresult
      exact ⟨List.prefix_refl states, Nat.le_antisymm h.length (List.getElem?_eq_none_iff.mp hs), h⟩
    | some s =>
      rw [hs] at hresult
      obtain ⟨hpre, hrest⟩ := ih (h.next hs) hresult
      exact ⟨(foldl_visit_nil step letters states s).1.trans hpre, hrest⟩

/-- Among finitely many states the worklist ends, and finds at most all of them. -/
theorem explore_returns {letters : List α} {bound : Finset σ} {fuel : ℕ} {states : List σ}
    {rows : List (List (Option ℕ))} (h : Numbered step letters states rows)
    (hbound : ∀ s ∈ states, s ∈ bound)
    (hclosed : ∀ s ∈ bound, ∀ a t, step s a = some t → t ∈ bound)
    (hfuel : bound.card ≤ rows.length + fuel) :
    ∃ result, explore step letters fuel states rows = some result ∧
      result.1.length ≤ bound.card := by
  have hcard : states.length ≤ bound.card := by
    rw [← List.toFinset_card_of_nodup h.nodup]
    exact Finset.card_le_card fun s hs => hbound s (List.mem_toFinset.mp hs)
  induction fuel generalizing states rows with
  | zero =>
    have hnone : states[rows.length]? = none := List.getElem?_eq_none_iff.mpr (by omega)
    exact ⟨(states, rows), by rw [explore, hnone], hcard⟩
  | succ fuel ih =>
    cases hs : states[rows.length]? with
    | none => exact ⟨(states, rows), by rw [explore, hs], hcard⟩
    | some s =>
      have hmem : s ∈ bound := hbound s (List.mem_of_getElem? hs)
      have hnext := h.next hs
      have hbound' : ∀ t ∈ (letters.foldl (visit step s) (states, [])).1, t ∈ bound :=
        foldl_visit_keeps (P := fun states => ∀ t ∈ states, t ∈ bound) s
          (fun _ a t hstates ht => forall_mem_found hstates (hclosed s hmem a t ht))
          letters (states, []) hbound
      have hcard' : (letters.foldl (visit step s) (states, [])).1.length ≤ bound.card := by
        rw [← List.toFinset_card_of_nodup hnext.nodup]
        exact Finset.card_le_card fun s hs => hbound' s (List.mem_toFinset.mp hs)
      obtain ⟨result, hresult, hlength⟩ := ih hnext hbound'
        (by rw [List.length_append, List.length_singleton]; omega) hcard'
      exact ⟨result, by rw [explore, hs]; exact hresult, hlength⟩

/-! ## The numbers as maps -/

theorem lookup_zipIdx_from (states : List σ) (s : σ) (k : ℕ) :
    (states.zipIdx k).lookup s = if s ∈ states then some (k + states.idxOf s) else none := by
  induction states generalizing k with
  | nil => rfl
  | cons t states ih =>
    rw [List.zipIdx_cons, List.lookup_cons]
    by_cases hst : s = t
    · rw [hst, beq_self_eq_true, if_pos List.mem_cons_self, List.idxOf_cons_self]
      rfl
    · rw [beq_eq_false_iff_ne.mpr hst, ih, List.idxOf_cons_ne _ (Ne.symm hst)]
      simp only [List.mem_cons, hst, false_or]
      rw [Nat.add_right_comm, Nat.add_assoc]

/-- The number of a state is found under it. -/
theorem lookup_zipIdx (states : List σ) (s : σ) :
    states.zipIdx.lookup s = if s ∈ states then some (states.idxOf s) else none := by
  rw [lookup_zipIdx_from]
  simp only [Nat.zero_add]

omit [DecidableEq σ] in
theorem lookup_zipIdx_swap_from (states : List σ) (k T : ℕ) :
    ((states.zipIdx k).map Prod.swap).lookup (k + T) = states[T]? := by
  induction states generalizing k T with
  | nil => rfl
  | cons t states ih =>
    rw [List.zipIdx_cons, List.map_cons, Prod.swap_prod_mk, List.lookup_cons]
    cases T with
    | zero => rw [Nat.add_zero, beq_self_eq_true, List.getElem?_cons_zero]
    | succ T =>
      rw [beq_eq_false_iff_ne.mpr (by omega), List.getElem?_cons_succ, ← ih (k + 1) T,
        Nat.add_right_comm, Nat.add_assoc]

omit [DecidableEq σ] in
/-- A state is found under its number. -/
theorem lookup_zipIdx_swap (states : List σ) (T : ℕ) :
    (states.zipIdx.map Prod.swap).lookup T = states[T]? := by
  have h := lookup_zipIdx_swap_from states 0 T
  rwa [Nat.zero_add] at h

/-! ## Runs of the numbers -/

/-- A step function on numbers that agrees with the steps of the states goes through the numbers
of the states that they go through. -/
theorem foldlM_idxOf {states : List σ} {number : ℕ → α → Option ℕ}
    (h : ∀ s ∈ states, ∀ a, number (states.idxOf s) a = (step s a).map states.idxOf ∧
      ∀ t ∈ step s a, t ∈ states) {s : σ} (hs : s ∈ states) (x : List α) :
    x.foldlM number (states.idxOf s) = (x.foldlM step s).map states.idxOf ∧
      ∀ t ∈ x.foldlM step s, t ∈ states := by
  induction x generalizing s with
  | nil =>
    refine ⟨rfl, fun t ht => ?_⟩
    cases ht
    exact hs
  | cons a x ih =>
    obtain ⟨hnumber, hnext⟩ := h s hs a
    rw [List.foldlM_cons, List.foldlM_cons, hnumber]
    cases hstep : step s a with
    | none => exact ⟨rfl, fun t ht => absurd ht (Option.not_mem_none t)⟩
    | some t => exact ih (hnext t hstep)

theorem getElem?_idxOf {states : List σ} {s : σ} (h : s ∈ states) :
    states[states.idxOf s]? = some s := by
  rw [List.getElem?_eq_getElem (List.idxOf_lt_length_of_mem h), List.getElem_idxOf]

/-- In a whole table the row of a state says where a letter leads. -/
theorem Numbered.entry {letters : List α} {states : List σ} {rows : List (List (Option ℕ))}
    (h : Numbered step letters states rows) (hlength : rows.length = states.length) {s : σ}
    (hs : s ∈ states) : rows[states.idxOf s]? = some (rowOf step letters states s) :=
  h.row _ s (hlength ▸ List.idxOf_lt_length_of_mem hs) (getElem?_idxOf hs)

theorem Numbered.leads_of_mem {letters : List α} {states : List σ} {rows : List (List (Option ℕ))}
    (h : Numbered step letters states rows) (hlength : rows.length = states.length) {s : σ}
    (hs : s ∈ states) : ∀ a ∈ letters, ∀ t ∈ step s a, t ∈ states :=
  h.leads _ s (hlength ▸ List.idxOf_lt_length_of_mem hs) (getElem?_idxOf hs)

/-- Every row of a whole table is that of a state. -/
theorem Numbered.exists_of_mem_rows {letters : List α} {states : List σ}
    {rows : List (List (Option ℕ))} (h : Numbered step letters states rows)
    (hlength : rows.length = states.length) {row : List (Option ℕ)} (hrow : row ∈ rows) :
    ∃ s ∈ states, row = rowOf step letters states s := by
  obtain ⟨T, hT, rfl⟩ := List.getElem_of_mem hrow
  have hT' : T < states.length := hlength ▸ hT
  have hstate : states[T]? = some states[T] := List.getElem?_eq_getElem hT'
  have hentry := h.row T _ hT hstate
  rw [List.getElem?_eq_getElem hT] at hentry
  exact ⟨states[T], List.getElem_mem hT', Option.some.inj hentry⟩

end Numbering
