import P4LS.Slex.Automaton

/-!
# Texts that can be completed

The automaton has positions left after a text exactly when the text begins a text that one of the
expressions is matched with, provided that every class of characters has one.
-/

namespace P4LS.Slex

open Node RegularExpression

/-- The tree has no ends in it, and each of its classes has a character. -/
def populated : Node → Bool
  | charNode _ _ => true
  | epsilonNode _ => true
  | orNode left right => populated left && populated right
  | catNode left right => populated left && populated right
  | starNode left => populated left
  | eofNode _ => false
  | cclNode flags _ => flags.toList.any id

/-- An expression is matched with the text. -/
def Matched (caseInsensitive : Bool) (trees : List Node) (x : Text) : Prop :=
  ∃ t ∈ trees, x ∈ matched caseInsensitive t

/-- The text begins one that an expression is matched with. -/
def Viable (caseInsensitive : Bool) (trees : List Node) (x : Text) : Prop :=
  ∃ y, Matched caseInsensitive trees (x ++ y)

theorem endFree_of_populated {t : Node} (h : populated t = true) : endFree t = true := by
  induction t with
  | charNode c k => rfl
  | epsilonNode k => rfl
  | orNode l r ihl ihr =>
    rw [populated, Bool.and_eq_true] at h
    rw [endFree, ihl h.1, ihr h.2]
    rfl
  | catNode l r ihl ihr =>
    rw [populated, Bool.and_eq_true] at h
    rw [endFree, ihl h.1, ihr h.2]
    rfl
  | starNode l ih => exact ih h
  | eofNode k => cases h
  | cclNode flags k => rfl

/-- Every position of a numbered tree reads a character. -/
theorem exists_readsAt {t : Node} (h : populated t = true) {stateMatch : StateMatch} {n : ℕ}
    (hrows : HoldsAt stateMatch n t.rows) {p : ℕ} (hp : p ∈ (t.assignNodeIds n).1.expr.positions) :
    ∃ c, readsAt stateMatch p c = true := by
  induction t generalizing n with
  | charNode c k =>
    rw [List.mem_singleton.mp hp]
    exact ⟨c, (readsAt_charNode hrows c).mpr rfl⟩
  | epsilonNode k => exact absurd hp List.not_mem_nil
  | orNode l r ihl ihr =>
    rw [populated, Bool.and_eq_true] at h
    obtain ⟨hl, hr⟩ := holdsAt_append hrows
    rcases List.mem_append.mp hp with hp | hp
    · exact ihl h.1 hl hp
    · exact ihr h.2 hr (assignNodeIds_snd l n ▸ hp)
  | catNode l r ihl ihr =>
    rw [populated, Bool.and_eq_true] at h
    obtain ⟨hl, hr⟩ := holdsAt_append hrows
    rcases List.mem_append.mp hp with hp | hp
    · exact ihl h.1 hl hp
    · exact ihr h.2 hr (assignNodeIds_snd l n ▸ hp)
  | starNode l ih => exact ih h hrows hp
  | eofNode k => cases h
  | cclNode flags k =>
    obtain ⟨b, hb, hset⟩ := List.any_eq_true.mp h
    obtain ⟨j, hj, rfl⟩ := List.mem_iff_getElem.mp hb
    have hlt : j < 256 := by rwa [Vector.length_toList] at hj
    rw [List.mem_singleton.mp hp]
    refine ⟨UInt8.ofNat j, ?_⟩
    rw [readsAt, UInt8.toNat_ofNat_of_lt' hlt, ← Nat.add_zero n, hrows 0 Nat.zero_lt_one, flag,
      rows, List.getD_cons_zero, List.getD_eq_getElem _ _ hj]
    exact hset

theorem exists_readAt {reads : ℕ → UInt8 → Bool} {w : List ℕ}
    (h : ∀ p ∈ w, ∃ c, reads p c = true) : ∃ y, ReadAt reads w y := by
  induction w with
  | nil => exact ⟨[], .nil⟩
  | cons p w ih =>
    obtain ⟨⟨c, hc⟩, hw⟩ := List.forall_mem_cons.mp h
    obtain ⟨y, hy⟩ := ih hw
    exact ⟨c :: y, .cons hc hy⟩

variable {caseInsensitive : Bool} {tree : Node} {trees : List Node}

/-- Every position of an expression reads a character of the flags. -/
theorem exists_readsAt_numberedFrom {stateMatch : StateMatch} {ts : List Node} {n : ℕ}
    (hpopulated : ∀ t ∈ ts, populated t = true)
    (h : HoldsAt stateMatch n (ts.flatMap fun t => (withEof t).rows)) {part : Node × ℕ}
    (hpart : part ∈ numberedFrom n ts) {p : ℕ} (hp : p ∈ part.1.expr.positions) :
    ∃ c, readsAt stateMatch p c = true := by
  induction ts generalizing n with
  | nil => exact absurd hpart List.not_mem_nil
  | cons first ts ih =>
    obtain ⟨hfirst, hts⟩ := List.forall_mem_cons.mp hpopulated
    rw [List.flatMap_cons] at h
    obtain ⟨hrows, hrest⟩ := holdsAt_append h
    rcases List.mem_cons.mp hpart with rfl | hpart
    · exact exists_readsAt hfirst (holdsAt_append hrows).1 hp
    · refine ih hts (n := (first.assignNodeIds n).2 + 1) ?_ hpart
      rw [assignNodeIds_snd]
      rw [withEof, rows, List.length_append] at hrest
      exact hrest

theorem exists_reads (hpopulated : ∀ t ∈ tree :: trees, populated t = true) {part : Node × ℕ}
    (hpart : part ∈ numberedFrom 0 (tree :: trees)) {p : ℕ} (hp : p ∈ part.1.expr.positions) :
    ∃ c, reads caseInsensitive tree trees p c = true := by
  obtain ⟨c, hc⟩ := exists_readsAt_numberedFrom hpopulated holdsAt_numberedTree hpart hp
  cases caseInsensitive with
  | false => exact ⟨c, hc⟩
  | true =>
    have hlt : p < (alternatives tree trees).rows.length :=
      position_lt (numberedTree_eq tree trees ▸ mem_positions_joined hpart hp)
    refine ⟨c, (readsAt_makeCaseInsensitive ?_ (length_row hlt) c).mpr ⟨c, rfl, hc⟩⟩
    rwa [computeStateMatch_numberedTree]

/-- Positions are left after the texts that can be completed. -/
theorem setAfter_nonempty_iff (hpopulated : ∀ t ∈ tree :: trees, populated t = true) (x : Text) :
    (setAfter caseInsensitive tree trees x).Nonempty ↔
      Viable caseInsensitive (tree :: trees) x := by
  have hlength := length_numberedFrom 0 (tree :: trees)
  rw [setAfter, after_firsts_nonempty (linear_numberedTree tree trees) (zeroFree_expr _)]
  constructor
  · rintro ⟨w, v, hread, hv, hword⟩
    rw [numberedTree_eq, mem_matches'_joined] at hword
    obtain ⟨part, hpart, u, hu, heq⟩ := hword
    obtain ⟨v, e, rfl⟩ := (List.eq_nil_or_concat' v).resolve_left hv
    rw [← List.append_assoc] at heq
    obtain ⟨rfl, _⟩ := List.append_inj' heq rfl
    obtain ⟨k, hk, rfl⟩ := List.mem_iff_getElem.mp hpart
    have hk' : k < (tree :: trees).length := hlength ▸ hk
    have hreads : ∀ p ∈ v, ∃ c, reads caseInsensitive tree trees p c = true := fun p hp =>
      exists_reads hpopulated hpart (mem_positions_of_mem hu p (List.mem_append_right w hp))
    obtain ⟨y, hy⟩ := exists_readAt hreads
    refine ⟨y, (tree :: trees)[k], List.getElem_mem hk', ?_⟩
    rw [← texts_reads (List.getElem?_eq_getElem hk') (List.getElem?_eq_getElem hk)]
    exact ⟨w ++ v, hu, readAt_append_iff.mpr ⟨x, y, rfl, hread, hy⟩⟩
  · rintro ⟨y, t, ht, hmatched⟩
    obtain ⟨k, hk, rfl⟩ := List.mem_iff_getElem.mp ht
    have hk' : k < (numberedFrom 0 (tree :: trees)).length := hlength.symm ▸ hk
    rw [← texts_reads (List.getElem?_eq_getElem hk) (List.getElem?_eq_getElem hk')] at hmatched
    obtain ⟨u, hu, hread⟩ := hmatched
    refine ⟨u.take x.length, u.drop x.length ++ [(numberedFrom 0 (tree :: trees))[k].2],
      List.forall₂_take_append u x y hread, List.append_ne_nil_of_right_ne_nil _
        (List.cons_ne_nil _ []), ?_⟩
    rw [← List.append_assoc, List.take_append_drop, numberedTree_eq, mem_matches'_joined]
    exact ⟨_, List.getElem_mem hk', u, hu, rfl⟩

end P4LS.Slex
