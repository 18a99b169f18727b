import Mathlib.Data.List.DropRight

/-!
# Backtracking matchers

A pattern is a sequence of classes of elements, each repeated greedily or lazily.  A backtracking
matcher tries the ways to split the text in an order: a greedy repetition takes the longest run
first, a lazy one the shortest.  `fullMatch` gives the runs of the first way that matches the
whole text.
-/

namespace Backtracking

variable {α : Type}

inductive Repetition (α : Type) where
  | greedy (p : α → Bool)
  | lazy (p : α → Bool)

/-- The ways to split a run of a class off a text, the shortest run first. -/
def runs (p : α → Bool) : List α → List (List α × List α)
  | [] => [([], [])]
  | c :: s =>
    ([], c :: s) :: if p c then (runs p s).map fun split => (c :: split.1, split.2) else []

def Repetition.splits : Repetition α → List α → List (List α × List α)
  | .greedy p, s => (runs p s).reverse
  | .lazy p, s => runs p s

def fullMatch : List (Repetition α) → List α → Option (List (List α))
  | [], s => if s.isEmpty then some [] else none
  | part :: more, s =>
    (part.splits s).findSome? fun split => (fullMatch more split.2).map (split.1 :: ·)

/-! ## Greedy repetitions -/

theorem mem_runs {p : α → Bool} {s run rest : List α} (h : (run, rest) ∈ runs p s) :
    s = run ++ rest ∧ run.all p = true := by
  induction s generalizing run with
  | nil =>
    rw [runs, List.mem_singleton] at h
    cases h
    exact ⟨rfl, rfl⟩
  | cons c s ih =>
    rcases List.mem_cons.mp h with hfirst | hmore
    · cases hfirst
      exact ⟨rfl, rfl⟩
    by_cases hc : p c = true
    · rw [if_pos hc] at hmore
      obtain ⟨split, hmem, heq⟩ := List.mem_map.mp hmore
      cases heq
      obtain ⟨hs, hall⟩ := ih hmem
      exact ⟨by rw [hs, List.cons_append], by rw [List.all_cons, hc, hall, Bool.and_self]⟩
    · rw [if_neg hc] at hmore
      exact absurd hmore List.not_mem_nil

/-- The longest run comes last. -/
theorem exists_runs_eq (p : α → Bool) (s : List α) :
    ∃ shorter, runs p s = shorter ++ [(s.takeWhile p, s.dropWhile p)] := by
  induction s with
  | nil => exact ⟨[], rfl⟩
  | cons c s ih =>
    by_cases hc : p c = true
    · obtain ⟨shorter, hruns⟩ := ih
      rw [runs, if_pos hc, hruns, List.map_append, List.takeWhile_cons_of_pos hc,
        List.dropWhile_cons_of_pos hc]
      exact ⟨_ :: _, rfl⟩
    · rw [runs, if_neg hc, List.takeWhile_cons_of_neg hc, List.dropWhile_cons_of_neg hc]
      exact ⟨[], rfl⟩

/-- A greedy repetition keeps the longest run where the rest of the pattern matches behind it. -/
theorem fullMatch_greedy {p : α → Bool} {more : List (Repetition α)} {s : List α}
    {found : List (List α)} (h : fullMatch more (s.dropWhile p) = some found) :
    fullMatch (.greedy p :: more) s = some (s.takeWhile p :: found) := by
  obtain ⟨shorter, hruns⟩ := exists_runs_eq p s
  rw [fullMatch, Repetition.splits, hruns, List.reverse_append, List.reverse_singleton,
    List.singleton_append, List.findSome?_cons, h, Option.map_some]

theorem fullMatch_greedy_of_all {p : α → Bool} {s : List α} (h : s.all p = true) :
    fullMatch [.greedy p] s = some [s] := by
  have htake : s.takeWhile p = s := List.takeWhile_eq_self_iff.mpr (List.all_eq_true.mp h)
  have hdrop : s.dropWhile p = [] := List.dropWhile_eq_nil_iff.mpr (List.all_eq_true.mp h)
  have hnil : fullMatch [] (s.dropWhile p) = some [] := by
    rw [hdrop]
    rfl
  rw [fullMatch_greedy hnil, htake]

theorem fullMatch_greedy_of_not_all {p : α → Bool} {s : List α} (h : ¬s.all p = true) :
    fullMatch [.greedy p] s = none := by
  rw [fullMatch, List.findSome?_eq_none_iff]
  intro split hmem
  obtain ⟨run, rest⟩ := split
  rw [Repetition.splits, List.mem_reverse] at hmem
  obtain ⟨hs, hall⟩ := mem_runs hmem
  cases rest with
  | nil =>
    rw [List.append_nil] at hs
    rw [hs] at h
    exact absurd hall h
  | cons c rest => rfl

/-! ## Lazy repetitions -/

/-- A lazy repetition is extended by an element where the rest of the pattern does not match. -/
theorem fullMatch_lazy_cons {p : α → Bool} {c : α} (hc : p c = true) (more : List (Repetition α))
    (s : List α) (hno : fullMatch more (c :: s) = none) :
    fullMatch (.lazy p :: more) (c :: s) =
      (fullMatch (.lazy p :: more) s).map (List.modifyHead (c :: ·)) := by
  rw [fullMatch, Repetition.splits, runs, if_pos hc, List.findSome?_cons, hno, Option.map_none,
    List.findSome?_map, fullMatch, Repetition.splits, List.map_findSome?]
  show List.findSome? _ _ = List.findSome? _ _
  congr 1
  funext split
  rw [Function.comp_apply, Function.comp_apply, Option.map_map]
  rfl

theorem rtakeWhile_cons_of_not_all {p : α → Bool} {c : α} {s : List α}
    (h : ¬(c :: s).all p = true) :
    (c :: s).rtakeWhile p = s.rtakeWhile p ∧ (c :: s).rdropWhile p = c :: s.rdropWhile p := by
  rw [List.rtakeWhile, List.rtakeWhile, List.rdropWhile, List.rdropWhile, List.reverse_cons]
  by_cases hs : s.all p = true
  · have hc : ¬p c = true := fun hc => h (by rw [List.all_cons, hc, hs, Bool.and_self])
    have hall : ∀ d ∈ s.reverse, p d = true := fun d hd =>
      List.all_eq_true.mp hs d (List.mem_reverse.mp hd)
    rw [List.takeWhile_append_of_pos hall, List.dropWhile_append_of_pos hall,
      List.takeWhile_cons_of_neg hc, List.dropWhile_cons_of_neg hc, List.append_nil,
      List.takeWhile_eq_self_iff.mpr hall, List.dropWhile_eq_nil_iff.mpr hall]
    exact ⟨rfl, rfl⟩
  · have hstop : s.reverse.dropWhile p ≠ [] := by
      intro hnil
      refine hs (List.all_eq_true.mpr fun d hd => ?_)
      exact List.dropWhile_eq_nil_iff.mp hnil d (List.mem_reverse.mpr hd)
    have hlength : ¬(s.reverse.takeWhile p).length = s.reverse.length := by
      intro heq
      have hself := (List.takeWhile_prefix (l := s.reverse) p).eq_of_length heq
      exact hstop (List.dropWhile_eq_nil_iff.mpr (List.takeWhile_eq_self_iff.mp hself))
    have hnot : ¬(s.reverse.dropWhile p).isEmpty = true := fun hempty =>
      hstop (List.isEmpty_iff.mp hempty)
    rw [List.takeWhile_append, List.dropWhile_append, if_neg hlength, if_neg hnot,
      List.reverse_append]
    exact ⟨rfl, rfl⟩

/-- A lazy repetition behind which a greedy one ends the text leaves it the longest run at the
end. -/
theorem fullMatch_lazy_greedy {p q : α → Bool} {s : List α} (h : s.all q = true) :
    fullMatch [.lazy q, .greedy p] s = some [s.rdropWhile p, s.rtakeWhile p] := by
  induction s with
  | nil => rfl
  | cons c s ih =>
    rw [List.all_cons, Bool.and_eq_true] at h
    by_cases hall : (c :: s).all p = true
    · rw [fullMatch, Repetition.splits, runs, List.findSome?_cons, fullMatch_greedy_of_all hall,
        Option.map_some, List.rdropWhile_eq_nil_iff.mpr (List.all_eq_true.mp hall),
        List.rtakeWhile_eq_self_iff.mpr (List.all_eq_true.mp hall)]
    · rw [fullMatch_lazy_cons h.1 _ _ (fullMatch_greedy_of_not_all hall), ih h.2,
        (rtakeWhile_cons_of_not_all hall).1, (rtakeWhile_cons_of_not_all hall).2]
      rfl

end Backtracking
