import Mathlib.Tactic.Common

/-!
# Maps as lists of entries

`emplace` adds an entry for a key that has none and otherwise does nothing.
`modify` changes the value of a key in place.
-/

namespace Assoc

variable {κ α : Type} [BEq κ]

def emplace (key : κ) (value : α) (entries : List (κ × α)) : List (κ × α) :=
  match entries.lookup key with
  | some _ => entries
  | none => entries ++ [(key, value)]

/-- Adding entries one by one keeps the values that are there. -/
def emplaceAll (new entries : List (κ × α)) : List (κ × α) :=
  new.foldl (fun entries entry => emplace entry.1 entry.2 entries) entries

theorem emplaceAll_cons (entry : κ × α) (new entries : List (κ × α)) :
    emplaceAll (entry :: new) entries = emplaceAll new (emplace entry.1 entry.2 entries) := rfl

def modify (key : κ) (f : α → α) (entries : List (κ × α)) : List (κ × α) :=
  entries.map fun entry => if entry.1 == key then (entry.1, f entry.2) else entry

theorem lookup_append (key : κ) (as bs : List (κ × α)) :
    (as ++ bs).lookup key = (as.lookup key).or (bs.lookup key) := by
  induction as with
  | nil => rfl
  | cons entry as ih =>
    rw [List.cons_append, List.lookup_cons, List.lookup_cons]
    cases key == entry.1 with
    | true => rfl
    | false => exact ih

theorem emplace_of_present {key : κ} {value old : α} {entries : List (κ × α)}
    (h : entries.lookup key = some old) : emplace key value entries = entries := by
  rw [emplace, h]

variable [LawfulBEq κ]

theorem mem_of_lookup {key : κ} {value : α} {entries : List (κ × α)}
    (h : entries.lookup key = some value) : (key, value) ∈ entries := by
  obtain ⟨before, after, rfl, _⟩ := List.lookup_eq_some_iff.mp h
  exact List.mem_append_right before List.mem_cons_self

theorem lookup_emplace_self {key : κ} {value : α} {entries : List (κ × α)}
    (h : entries.lookup key = none) : (emplace key value entries).lookup key = some value := by
  rw [emplace, h]
  simp [lookup_append, h]

theorem lookup_emplace_ne {key other : κ} (h : other ≠ key) (value : α)
    (entries : List (κ × α)) :
    (emplace key value entries).lookup other = entries.lookup other := by
  unfold emplace
  cases entries.lookup key with
  | some _ => rfl
  | none =>
    have hne : (other == key) = false := by simpa using h
    simp [lookup_append, List.lookup_cons, hne]

theorem lookup_emplaceAll (key : κ) (new entries : List (κ × α)) :
    (emplaceAll new entries).lookup key = (entries.lookup key).or (new.lookup key) := by
  induction new generalizing entries with
  | nil => exact Option.or_none.symm
  | cons entry new ih =>
    rw [emplaceAll_cons, ih, List.lookup_cons]
    by_cases h : key = entry.1
    · rw [h, beq_self_eq_true]
      cases hold : entries.lookup entry.1 with
      | none => rw [lookup_emplace_self hold, Option.some_or, Option.none_or]
      | some old => rw [emplace_of_present hold, hold, Option.some_or, Option.some_or]
    · have hne : (key == entry.1) = false := by simpa using h
      rw [lookup_emplace_ne h, hne]

theorem lookup_modify_self (key : κ) (f : α → α) (entries : List (κ × α)) :
    (modify key f entries).lookup key = (entries.lookup key).map f := by
  induction entries with
  | nil => rfl
  | cons entry entries ih =>
    obtain ⟨k, value⟩ := entry
    rw [modify, List.map_cons, ← modify]
    by_cases h : k = key
    · simp [h]
    · have hne : (key == k) = false := by simpa using fun he => h he.symm
      have hne' : (k == key) = false := by simpa using h
      rw [hne', if_neg Bool.false_ne_true, List.lookup_cons, List.lookup_cons, hne]
      exact ih

theorem lookup_modify_ne {key other : κ} (h : other ≠ key) (f : α → α)
    (entries : List (κ × α)) : (modify key f entries).lookup other = entries.lookup other := by
  induction entries with
  | nil => rfl
  | cons entry entries ih =>
    obtain ⟨k, value⟩ := entry
    rw [modify, List.map_cons, ← modify]
    by_cases he : k = key
    · have hne : (other == key) = false := by simpa using h
      simp [he, List.lookup_cons, hne, ih]
    · have hne' : (k == key) = false := by simpa using he
      rw [hne', if_neg Bool.false_ne_true, List.lookup_cons, List.lookup_cons, ih]

end Assoc
