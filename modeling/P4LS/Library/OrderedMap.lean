import Mathlib.Data.List.Pairwise
import Mathlib.Data.List.Perm.Basic

/-!
# Maps ordered by a comparator

A map is the list of its entries in the order of a comparator, which tells two keys apart by some
part of them.  `emplace` adds an entry if the comparator tells its key apart from every key of the
map, so keys that agree in that part push each other out.
-/

namespace OrderedMap

variable {κ κ' α β γ : Type}

/-! ## Comparators -/

def ExactlyOne (p q r : Prop) : Prop := p ∧ ¬q ∧ ¬r ∨ ¬p ∧ q ∧ ¬r ∨ ¬p ∧ ¬q ∧ r

structure StrictOrder (lt : κ → κ → Bool) : Prop where
  irrefl : ∀ a, ¬lt a a = true
  asymm : ∀ a b, lt a b = true → ¬lt b a = true
  trans : ∀ a b c, lt a b = true → lt b c = true → lt a c = true

/-- The comparator is transitive and tells two values apart by `part`. -/
structure ComparesBy (lt : κ → κ → Bool) (part : κ → β) : Prop where
  trans : ∀ a b c, lt a b = true → lt b c = true → lt a c = true
  lt_or_lt_iff : ∀ a b, lt a b = true ∨ lt b a = true ↔ part a ≠ part b

section

variable {lt : κ → κ → Bool} {part : κ → β}

theorem ComparesBy.ne (h : ComparesBy lt part) {a b : κ} (hab : lt a b = true) :
    part a ≠ part b := (h.lt_or_lt_iff a b).mp (.inl hab)

theorem ComparesBy.strictOrder (h : ComparesBy lt part) : StrictOrder lt where
  irrefl _ haa := h.ne haa rfl
  asymm a b hab hba := h.ne (h.trans a b a hab hba) rfl
  trans := h.trans

/-- A value that agrees with the greater one is greater too. -/
theorem ComparesBy.lt_of_lt_of_eq (h : ComparesBy lt part) {a b c : κ} (hab : lt a b = true)
    (hbc : part b = part c) : lt a c = true := by
  have hne : part a ≠ part c := hbc ▸ h.ne hab
  rcases (h.lt_or_lt_iff a c).mpr hne with hac | hca
  · exact hac
  · exact absurd hbc.symm (h.ne (h.trans c a b hca hab))

theorem ComparesBy.lt_of_eq_of_lt (h : ComparesBy lt part) {a b c : κ} (hab : part a = part b)
    (hbc : lt b c = true) : lt a c = true := by
  have hne : part a ≠ part c := hab ▸ h.ne hbc
  rcases (h.lt_or_lt_iff a c).mpr hne with hac | hca
  · exact hac
  · exact absurd hab.symm (h.ne (h.trans b c a hbc hca))

/-- Two values are equal or one of them is less, and only one of the three, if and only if they
are equal where their parts are. -/
theorem ComparesBy.exactlyOne_iff (h : ComparesBy lt part) (a b : κ) :
    ExactlyOne (lt a b = true) (lt b a = true) (a = b) ↔ (part a = part b → a = b) := by
  have hasymm := h.strictOrder.asymm a b
  have hlt := h.lt_or_lt_iff a b
  by_cases hpart : part a = part b
  · have hnot : ¬(lt a b = true ∨ lt b a = true) := fun hor => hlt.mp hor hpart
    rw [not_or] at hnot
    simp [ExactlyOne, hpart, hnot.1, hnot.2]
  · have hab : a ≠ b := fun hab => hpart (congrArg part hab)
    rcases hlt.mpr hpart with hab' | hba'
    · simp [ExactlyOne, hpart, hab, hab', hasymm hab']
    · have hab' : ¬lt a b = true := fun hab' => hasymm hab' hba'
      simp [ExactlyOne, hpart, hab, hab', hba']

/-- One comparator, and where it finds no difference another one. -/
theorem ComparesBy.lex [BEq β] [LawfulBEq β] {lt' : κ → κ → Bool} {part' : κ → γ}
    (h : ComparesBy lt part) (h' : ComparesBy lt' part') :
    ComparesBy (fun a b => lt a b || (part a == part b && lt' a b))
      (fun a => (part a, part' a)) where
  trans a b c hab hbc := by
    simp only [Bool.or_eq_true, Bool.and_eq_true, beq_iff_eq] at hab hbc ⊢
    rcases hab with hab | ⟨hab, hab'⟩
    · rcases hbc with hbc | ⟨hbc, _⟩
      · exact .inl (h.trans a b c hab hbc)
      · exact .inl (h.lt_of_lt_of_eq hab hbc)
    · rcases hbc with hbc | ⟨hbc, hbc'⟩
      · exact .inl (h.lt_of_eq_of_lt hab hbc)
      · exact .inr ⟨hab.trans hbc, h'.trans a b c hab' hbc'⟩
  lt_or_lt_iff a b := by
    have hlt := h.lt_or_lt_iff a b
    have hlt' := h'.lt_or_lt_iff a b
    simp only [Bool.or_eq_true, Bool.and_eq_true, beq_iff_eq, ne_eq, Prod.mk.injEq, not_and]
    by_cases hpart : part a = part b
    · have hnot : ¬(lt a b = true ∨ lt b a = true) := fun hor => hlt.mp hor hpart
      rw [not_or] at hnot
      simpa [hpart, hnot.1, hnot.2] using hlt'
    · simpa [hpart, Ne.symm hpart] using hlt.mpr hpart

theorem ComparesBy.comap (h : ComparesBy lt part) (f : κ' → κ) :
    ComparesBy (fun a b => lt (f a) (f b)) (fun a => part (f a)) where
  trans a b c := h.trans (f a) (f b) (f c)
  lt_or_lt_iff a b := h.lt_or_lt_iff (f a) (f b)

/-- It does not matter how the part is presented. -/
theorem ComparesBy.congr_part (h : ComparesBy lt part) {part' : κ → γ}
    (hpart : ∀ a b, part a = part b ↔ part' a = part' b) : ComparesBy lt part' where
  trans := h.trans
  lt_or_lt_iff a b := (h.lt_or_lt_iff a b).trans (not_congr (hpart a b))

end

/-- The order of a type compares its values by themselves. -/
theorem comparesBy_lt [LT β] [LE β] [DecidableLT β] [Std.IsLinearOrder β] [Std.LawfulOrderLT β] :
    ComparesBy (fun a b : β => decide (a < b)) id where
  trans a b c hab hbc := by
    rw [decide_eq_true_eq] at hab hbc ⊢
    exact Std.lt_trans hab hbc
  lt_or_lt_iff a b := by
    rw [decide_eq_true_eq, decide_eq_true_eq]
    constructor
    · intro hlt heq
      have heq' : a = b := heq
      subst heq'
      exact Std.lt_irrefl (hlt.elim id id)
    · intro hne
      rcases Std.lt_trichotomy a b with hlt | heq | hgt
      · exact .inl hlt
      · exact absurd heq hne
      · exact .inr hgt

/-! ## Entries -/

def emplace (lt : κ → κ → Bool) (key : κ) (value : α) : List (κ × α) → List (κ × α)
  | [] => [(key, value)]
  | entry :: entries =>
    if lt key entry.1 then (key, value) :: entry :: entries
    else if lt entry.1 key then entry :: emplace lt key value entries
    else entry :: entries

def emplaceAll (lt : κ → κ → Bool) (new entries : List (κ × α)) : List (κ × α) :=
  new.foldl (fun entries entry => emplace lt entry.1 entry.2 entries) entries

def Sorted (lt : κ → κ → Bool) (entries : List (κ × α)) : Prop :=
  entries.Pairwise fun a b => lt a.1 b.1 = true

section

variable {lt : κ → κ → Bool} {part : κ → β} {key : κ} {value : α} {entries new : List (κ × α)}

theorem mem_emplace {e : κ × α} (h : e ∈ emplace lt key value entries) :
    e = (key, value) ∨ e ∈ entries := by
  induction entries with
  | nil => exact .inl (List.mem_singleton.mp h)
  | cons entry entries ih =>
    unfold emplace at h
    split at h
    · exact List.mem_cons.mp h
    · split at h
      · rcases List.mem_cons.mp h with rfl | h
        · exact .inr List.mem_cons_self
        · exact (ih h).imp_right (List.mem_cons_of_mem _)
      · exact .inr h

theorem Sorted.emplace (hlt : StrictOrder lt) (h : Sorted lt entries) :
    Sorted lt (emplace lt key value entries) := by
  induction entries with
  | nil => exact List.pairwise_singleton _ _
  | cons entry entries ih =>
    obtain ⟨hentry, hentries⟩ := List.pairwise_cons.mp h
    unfold OrderedMap.emplace
    split
    · rename_i hkey
      refine List.pairwise_cons.mpr ⟨fun e he => ?_, h⟩
      rcases List.mem_cons.mp he with rfl | he
      · exact hkey
      · exact hlt.trans _ _ _ hkey (hentry e he)
    · split
      · rename_i hkey
        refine List.pairwise_cons.mpr ⟨fun e he => ?_, ih hentries⟩
        rcases mem_emplace he with rfl | he
        · exact hkey
        · exact hentry e he
      · exact h

theorem Sorted.emplaceAll (hlt : StrictOrder lt) (h : Sorted lt entries) :
    Sorted lt (emplaceAll lt new entries) := by
  induction new generalizing entries with
  | nil => exact h
  | cons entry new ih => exact ih (h.emplace hlt)

/-- A key that the comparator tells apart from all others is added. -/
theorem emplace_perm (h : ∀ e ∈ entries, lt key e.1 = true ∨ lt e.1 key = true) :
    (emplace lt key value entries).Perm ((key, value) :: entries) := by
  induction entries with
  | nil => exact .refl _
  | cons entry entries ih =>
    unfold emplace
    split
    · exact .refl _
    · rename_i hkey
      have hentry := (h entry List.mem_cons_self).resolve_left hkey
      rw [if_pos hentry]
      have hrest := ih fun e he => h e (List.mem_cons_of_mem _ he)
      exact (hrest.cons entry).trans (.swap _ _ _)

/-- Keys that the comparator tells apart are all added. -/
theorem emplaceAll_perm
    (h : (new ++ entries).Pairwise fun a b => lt a.1 b.1 = true ∨ lt b.1 a.1 = true) :
    (emplaceAll lt new entries).Perm (new ++ entries) := by
  induction new generalizing entries with
  | nil => exact .refl _
  | cons entry new ih =>
    obtain ⟨hentry, hrest⟩ := List.pairwise_cons.mp h
    have hperm : (emplace lt entry.1 entry.2 entries).Perm (entry :: entries) :=
      emplace_perm fun e he => hentry e (List.mem_append_right new he)
    have hmoved : (new ++ emplace lt entry.1 entry.2 entries).Perm (entry :: (new ++ entries)) :=
      (hperm.append_left new).trans List.perm_middle
    exact (ih (hmoved.symm.pairwise h Or.symm)).trans hmoved

/-- Of entries with different keys, added to an empty map, all are in it if and only if their keys
differ in the part that is compared. -/
theorem emplaceAll_keeps_iff (hlt : ComparesBy lt part)
    (hkeys : new.Pairwise fun a b => a.1 ≠ b.1) :
    (∀ e ∈ new, e ∈ emplaceAll lt new []) ↔ new.Pairwise fun a b => part a.1 ≠ part b.1 := by
  constructor
  · intro hkept
    have hsorted : Sorted lt (emplaceAll lt new []) := Sorted.emplaceAll hlt.strictOrder .nil
    have hsymm : Std.Symm fun a b : κ × α => part a.1 ≠ part b.1 := ⟨fun _ _ hab => hab.symm⟩
    have hparts : (emplaceAll lt new []).Pairwise fun a b => part a.1 ≠ part b.1 :=
      List.Pairwise.imp hlt.ne hsorted
    refine hkeys.imp_of_mem fun {a b} ha hb hab => ?_
    exact hparts.forall (hkept a ha) (hkept b hb) fun heq => hab (congrArg Prod.fst heq)
  · intro hparts e he
    have hapart : (new ++ []).Pairwise
        fun a b : κ × α => lt a.1 b.1 = true ∨ lt b.1 a.1 = true := by
      rw [List.append_nil]
      exact hparts.imp (hlt.lt_or_lt_iff _ _).mpr
    exact (emplaceAll_perm hapart).mem_iff.mpr (List.mem_append_left [] he)

end

end OrderedMap
