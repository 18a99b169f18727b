import P4LS.Library.Assoc

/-!
# Lookups that keep what they have read

Each lookup is of a key and has a source of its own.  It keeps every entry of the
sources that have been opened, asks what has been kept first, and opens its
source only for a key nothing has been kept for.  An answer then depends on the
lookups before it unless the sources agree on the keys they list.
-/

namespace Memo

variable {ι κ α : Type} [BEq κ]

/-- The entries kept after a lookup, those of the sources opened first in front. -/
def extend (name : ι → κ) (source : ι → List (κ × α)) (kept : List (κ × α)) (i : ι) :
    List (κ × α) :=
  match kept.lookup (name i) with
  | some _ => kept
  | none => kept ++ source i

/-- Every lookup has the value that is expected of its key: what has been kept for
it, and otherwise what its source lists. -/
def Undisturbed (name : ι → κ) (source : ι → List (κ × α)) (default : α) (expected : κ → α)
    (kept : List (κ × α)) : List ι → Prop
  | [] => True
  | i :: lookups =>
    ((kept.lookup (name i)).or ((source i).lookup (name i))).getD default = expected (name i) ∧
      Undisturbed name source default expected (extend name source kept i) lookups

/-- The lookups of a class find the value that is expected in their own sources,
and their sources list it for every key of the class that they list. -/
structure Agree (P : ι → Prop) (name : ι → κ) (source : ι → List (κ × α)) (default : α)
    (expected : κ → α) : Prop where
  own : ∀ i, P i → ((source i).lookup (name i)).getD default = expected (name i)
  others : ∀ i, P i → ∀ j, P j → ∀ value, (source i).lookup (name j) = some value →
    value = expected (name j)

/-- What is kept for the keys of a class is what is expected. -/
def Sound (P : ι → Prop) (name : ι → κ) (expected : κ → α) (kept : List (κ × α)) : Prop :=
  ∀ i, P i → ∀ value, kept.lookup (name i) = some value → value = expected (name i)

variable {P : ι → Prop} {name : ι → κ} {source : ι → List (κ × α)} {default : α}
  {expected : κ → α} {kept : List (κ × α)}

theorem sound_nil : Sound P name expected [] := fun _ _ _ h => by cases h

theorem Sound.extend (hagree : Agree P name source default expected)
    (h : Sound P name expected kept) {i : ι} (hi : P i) :
    Sound P name expected (extend name source kept i) := by
  intro j hj value hvalue
  unfold Memo.extend at hvalue
  cases hkept : kept.lookup (name i) with
  | some _ =>
    rw [hkept] at hvalue
    exact h j hj value hvalue
  | none =>
    rw [hkept, Assoc.lookup_append] at hvalue
    rcases Option.or_eq_some_iff.mp hvalue with hold | ⟨_, hnew⟩
    · exact h j hj value hold
    · exact hagree.others i hi j hj value hnew

theorem Agree.undisturbed (hagree : Agree P name source default expected)
    (hsound : Sound P name expected kept) {lookups : List ι} (hlookups : ∀ i ∈ lookups, P i) :
    Undisturbed name source default expected kept lookups := by
  induction lookups generalizing kept with
  | nil => trivial
  | cons i lookups ih =>
    have hi := hlookups i List.mem_cons_self
    refine ⟨?_, ih (hsound.extend hagree hi) fun j hj => hlookups j (List.mem_cons_of_mem i hj)⟩
    cases hkept : kept.lookup (name i) with
    | some value => exact hsound i hi value hkept
    | none => exact hagree.own i hi

/-- Two lookups, one after the other, find out a source that disagrees. -/
theorem agree_of_undisturbed
    (h : ∀ lookups, (∀ i ∈ lookups, P i) →
      Undisturbed name source default expected [] lookups) :
    Agree P name source default expected where
  own i hi := (h [i] fun j hj => by rwa [List.mem_singleton.mp hj]).1
  others i hi j hj value hvalue := by
    have hboth : ∀ k ∈ [i, j], P k := by
      intro k hk
      rcases List.mem_cons.mp hk with rfl | hk
      · exact hi
      · rwa [List.mem_singleton.mp hk]
    have hsecond := (h [i, j] hboth).2.1
    have hlisted : (extend name source [] i).lookup (name j) = some value := hvalue
    rw [hlisted] at hsecond
    exact hsecond

/-- No order of lookups disturbs an answer exactly when the sources agree. -/
theorem undisturbed_iff_agree :
    (∀ lookups, (∀ i ∈ lookups, P i) →
        Undisturbed name source default expected [] lookups) ↔
      Agree P name source default expected :=
  ⟨agree_of_undisturbed, fun h _ hlookups => h.undisturbed sound_nil hlookups⟩

end Memo
