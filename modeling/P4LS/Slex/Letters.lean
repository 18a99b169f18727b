import P4LS.Slex.Dfa

/-!
# Letters of both cases

`make_case_insensitive` turns on both cases of every letter that a node reads, so that a node
reads what is the same letter as a character it read.
-/

namespace P4LS.Slex

def lower (c : ℕ) : ℕ := if 65 ≤ c ∧ c ≤ 90 then c + 32 else c

/-- The same character, or the same letter in the other case. -/
def SameLetter (a b : UInt8) : Prop := lower a.toNat = lower b.toNat

/-- One row with the first letters turned on in both cases. -/
def bothCases (n : ℕ) (row : List Bool) : List Bool :=
  (List.range n).foldl (fun row i =>
    let set := row.getD (65 + i) false || row.getD (97 + i) false
    (row.set (65 + i) set).set (97 + i) set) row

theorem bothCases_succ (n : ℕ) (row : List Bool) :
    bothCases (n + 1) row =
      ((bothCases n row).set (65 + n)
        ((bothCases n row).getD (65 + n) false || (bothCases n row).getD (97 + n) false)).set
        (97 + n) ((bothCases n row).getD (65 + n) false || (bothCases n row).getD (97 + n) false) := by
  rw [bothCases, List.range_succ, List.foldl_append]
  rfl

theorem length_bothCases (n : ℕ) (row : List Bool) : (bothCases n row).length = row.length := by
  induction n with
  | zero => rfl
  | succ n ih => rw [bothCases_succ, List.length_set, List.length_set, ih]

theorem getD_set (row : List Bool) (i j : ℕ) (b : Bool) :
    (row.set i b).getD j false = if i = j ∧ j < row.length then b else row.getD j false := by
  rw [List.getD_eq_getElem?_getD, List.getD_eq_getElem?_getD, List.getElem?_set]
  by_cases hij : i = j
  · by_cases hj : j < row.length
    · rw [if_pos hij, if_pos (hij ▸ hj), if_pos ⟨hij, hj⟩]
      rfl
    · rw [if_pos hij, if_neg (hij ▸ hj), if_neg (fun h => hj h.2),
        List.getElem?_eq_none (Nat.le_of_not_lt hj)]
  · rw [if_neg hij, if_neg (fun h => hij h.1)]

theorem getD_bothCases {n : ℕ} (hn : n ≤ 26) {row : List Bool} (hrow : row.length = 256) (j : ℕ) :
    (bothCases n row).getD j false =
      if 65 ≤ j ∧ j < 65 + n then row.getD j false || row.getD (j + 32) false
      else if 97 ≤ j ∧ j < 97 + n then row.getD (j - 32) false || row.getD j false
      else row.getD j false := by
  induction n generalizing j with
  | zero =>
    rw [if_neg (by omega), if_neg (by omega)]
    rfl
  | succ n ih =>
    have hlength := length_bothCases n row
    have hupper := ih (by omega) (65 + n)
    have hlower := ih (by omega) (97 + n)
    have hother := ih (by omega) j
    rw [if_neg (by omega), if_neg (by omega)] at hupper hlower
    rw [bothCases_succ, getD_set, getD_set, hupper, hlower, hother, List.length_set, hlength, hrow]
    by_cases h65 : j = 65 + n
    · rw [if_neg (by omega), if_pos (by omega), if_pos (by omega), h65,
        show 65 + n + 32 = 97 + n by omega]
    · by_cases h97 : j = 97 + n
      · rw [if_pos (by omega), if_neg (by omega), if_pos (by omega), h97,
          show 97 + n - 32 = 65 + n by omega]
      · have h1 : (65 ≤ j ∧ j < 65 + n) ↔ (65 ≤ j ∧ j < 65 + (n + 1)) := by omega
        have h2 : (97 ≤ j ∧ j < 97 + n) ↔ (97 ≤ j ∧ j < 97 + (n + 1)) := by omega
        rw [if_neg (by omega), if_neg (by omega)]
        simp only [h1, h2]

/-- With both cases turned on a row has the characters that are the same letter as one it had. -/
theorem getD_bothCases_iff {row : List Bool} (hrow : row.length = 256) (c : UInt8) :
    (bothCases 26 row).getD c.toNat false = true ↔
      ∃ b : UInt8, SameLetter c b ∧ row.getD b.toNat false = true := by
  have hc : c.toNat < 256 := c.toNat_lt
  rw [getD_bothCases (Nat.le_refl 26) hrow]
  constructor
  · intro h
    by_cases hupper : 65 ≤ c.toNat ∧ c.toNat < 65 + 26
    · rw [if_pos hupper, Bool.or_eq_true] at h
      rcases h with h | h
      · exact ⟨c, rfl, h⟩
      · have hb : (UInt8.ofNat (c.toNat + 32)).toNat = c.toNat + 32 :=
          UInt8.toNat_ofNat_of_lt' (by change _ < 256; omega)
        refine ⟨UInt8.ofNat (c.toNat + 32), ?_, by rwa [hb]⟩
        rw [SameLetter, hb, lower, lower, if_pos (by omega), if_neg (by omega)]
    · rw [if_neg hupper] at h
      by_cases hlower : 97 ≤ c.toNat ∧ c.toNat < 97 + 26
      · rw [if_pos hlower, Bool.or_eq_true] at h
        rcases h with h | h
        · have hb : (UInt8.ofNat (c.toNat - 32)).toNat = c.toNat - 32 :=
            UInt8.toNat_ofNat_of_lt' (by change _ < 256; omega)
          refine ⟨UInt8.ofNat (c.toNat - 32), ?_, by rwa [hb]⟩
          rw [SameLetter, hb, lower, lower, if_neg (by omega), if_pos (by omega)]
          omega
        · exact ⟨c, rfl, h⟩
      · rw [if_neg hlower] at h
        exact ⟨c, rfl, h⟩
  · rintro ⟨b, hsame, hb⟩
    rw [SameLetter, lower, lower] at hsame
    by_cases hupper : 65 ≤ c.toNat ∧ c.toNat < 65 + 26
    · rw [if_pos hupper, Bool.or_eq_true]
      rw [if_pos (by omega)] at hsame
      by_cases hbu : 65 ≤ b.toNat ∧ b.toNat ≤ 90
      · rw [if_pos hbu] at hsame
        exact .inl (by rwa [show c.toNat = b.toNat by omega])
      · rw [if_neg hbu] at hsame
        exact .inr (by rwa [hsame])
    · rw [if_neg hupper]
      rw [if_neg (by omega)] at hsame
      by_cases hlower : 97 ≤ c.toNat ∧ c.toNat < 97 + 26
      · rw [if_pos hlower, Bool.or_eq_true]
        by_cases hbu : 65 ≤ b.toNat ∧ b.toNat ≤ 90
        · rw [if_pos hbu] at hsame
          exact .inl (by rwa [show c.toNat - 32 = b.toNat by omega])
        · rw [if_neg hbu] at hsame
          exact .inr (by rwa [hsame])
      · rw [if_neg hlower]
        by_cases hbu : 65 ≤ b.toNat ∧ b.toNat ≤ 90
        · rw [if_pos hbu] at hsame
          omega
        · rw [if_neg hbu] at hsame
          rwa [hsame]

theorem makeCaseInsensitive_eq (stateMatch : StateMatch) :
    makeCaseInsensitive stateMatch = stateMatch.map (bothCases 26) := rfl

theorem length_makeCaseInsensitive (stateMatch : StateMatch) :
    (makeCaseInsensitive stateMatch).length = stateMatch.length := List.length_map _

theorem getD_makeCaseInsensitive {stateMatch : StateMatch} {p : ℕ} (hp : p < stateMatch.length) :
    (makeCaseInsensitive stateMatch).getD p [] = bothCases 26 (stateMatch.getD p []) := by
  rw [makeCaseInsensitive_eq, List.getD_eq_getElem _ _ (by rwa [List.length_map]),
    List.getD_eq_getElem _ _ hp, List.getElem_map]

theorem readsAt_makeCaseInsensitive {stateMatch : StateMatch} {p : ℕ} (hp : p < stateMatch.length)
    (hrow : (stateMatch.getD p []).length = 256) (c : UInt8) :
    readsAt (makeCaseInsensitive stateMatch) p c = true ↔
      ∃ b, SameLetter c b ∧ readsAt stateMatch p b = true := by
  rw [readsAt, flag, getD_makeCaseInsensitive hp, getD_bothCases_iff hrow]
  rfl

end P4LS.Slex
