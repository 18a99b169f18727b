import Mathlib.Computability.RegularExpressions
import Mathlib.Data.Finset.Basic
import Mathlib.Data.List.Chain
import Mathlib.Data.List.Nodup

/-!
# Positions of a regular expression

The letters of the expression are its positions.  `firsts`, `lasts` and `follows` say which
positions a word may begin with, which it may end with and which it may hold one after another.
When no position occurs twice, these decide the words of the expression: `mem_matches'_iff`.
-/

namespace RegularExpression

variable {ι : Type}

def positions : RegularExpression ι → List ι
  | 0 => []
  | 1 => []
  | char i => [i]
  | P + Q => P.positions ++ Q.positions
  | P * Q => P.positions ++ Q.positions
  | star P => P.positions

/-- No position occurs twice. -/
def Linear (P : RegularExpression ι) : Prop := P.positions.Nodup

theorem nil_mem_matches'_iff [DecidableEq ι] (P : RegularExpression ι) :
    [] ∈ P.matches' ↔ P.matchEpsilon = true := by
  rw [← rmatch_iff_matches', rmatch]

/-- The words of an expression are made of its positions. -/
theorem mem_positions_of_mem {P : RegularExpression ι} {w : List ι} (h : w ∈ P.matches') :
    ∀ i ∈ w, i ∈ P.positions := by
  induction P generalizing w with
  | zero => exact absurd h (Language.notMem_zero w)
  | epsilon =>
    rw [one_def, matches'_epsilon, Language.mem_one] at h
    rw [h]
    intro i hi
    exact absurd hi List.not_mem_nil
  | char i =>
    rw [matches'_char] at h
    rw [Set.mem_singleton_iff.mp h]
    exact fun j hj => hj
  | plus P Q ihP ihQ =>
    rw [plus_def, matches'_add, Language.mem_add] at h
    intro i hi
    rcases h with h | h
    · exact List.mem_append_left _ (ihP h i hi)
    · exact List.mem_append_right _ (ihQ h i hi)
  | comp P Q ihP ihQ =>
    rw [comp_def, matches'_mul, Language.mem_mul] at h
    obtain ⟨u, hu, v, hv, huv⟩ := h
    rw [← huv]
    intro i hi
    rcases List.mem_append.mp hi with hi | hi
    · exact List.mem_append_left _ (ihP hu i hi)
    · exact List.mem_append_right _ (ihQ hv i hi)
  | star P ih =>
    rw [matches'_star, Language.mem_kstar] at h
    obtain ⟨parts, hw, hparts⟩ := h
    rw [hw]
    intro i hi
    obtain ⟨v, hv, hiv⟩ := List.mem_flatten.mp hi
    exact ih (hparts v hv) i hiv

variable [DecidableEq ι]

def firsts : RegularExpression ι → Finset ι
  | 0 => ∅
  | 1 => ∅
  | char i => {i}
  | P + Q => P.firsts ∪ Q.firsts
  | P * Q => if P.matchEpsilon then P.firsts ∪ Q.firsts else P.firsts
  | star P => P.firsts

def lasts : RegularExpression ι → Finset ι
  | 0 => ∅
  | 1 => ∅
  | char i => {i}
  | P + Q => P.lasts ∪ Q.lasts
  | P * Q => if Q.matchEpsilon then P.lasts ∪ Q.lasts else Q.lasts
  | star P => P.lasts

def follows : RegularExpression ι → ι → Finset ι
  | 0, _ => ∅
  | 1, _ => ∅
  | char _, _ => ∅
  | P + Q, i => P.follows i ∪ Q.follows i
  | P * Q, i => (if i ∈ P.lasts then Q.firsts else ∅) ∪ (P.follows i ∪ Q.follows i)
  | star P, i => (if i ∈ P.lasts then P.firsts else ∅) ∪ P.follows i

theorem mem_firsts_mul {P Q : RegularExpression ι} {i : ι} :
    i ∈ (P * Q).firsts ↔ i ∈ P.firsts ∨ P.matchEpsilon = true ∧ i ∈ Q.firsts := by
  show i ∈ (if P.matchEpsilon then P.firsts ∪ Q.firsts else P.firsts) ↔ _
  by_cases h : P.matchEpsilon = true
  · simp [h]
  · simp [h]

theorem mem_lasts_mul {P Q : RegularExpression ι} {i : ι} :
    i ∈ (P * Q).lasts ↔ i ∈ Q.lasts ∨ Q.matchEpsilon = true ∧ i ∈ P.lasts := by
  show i ∈ (if Q.matchEpsilon then P.lasts ∪ Q.lasts else Q.lasts) ↔ _
  by_cases h : Q.matchEpsilon = true
  · simp [h, or_comm]
  · simp [h]

theorem mem_follows_mul {P Q : RegularExpression ι} {i j : ι} :
    j ∈ (P * Q).follows i ↔
      (j ∈ P.follows i ∨ j ∈ Q.follows i) ∨ i ∈ P.lasts ∧ j ∈ Q.firsts := by
  show j ∈ (if i ∈ P.lasts then Q.firsts else ∅) ∪ (P.follows i ∪ Q.follows i) ↔ _
  by_cases h : i ∈ P.lasts
  · simp [h, or_comm]
  · simp [h]

theorem mem_follows_star {P : RegularExpression ι} {i j : ι} :
    j ∈ (star P).follows i ↔ j ∈ P.follows i ∨ i ∈ P.lasts ∧ j ∈ P.firsts := by
  rw [follows]
  by_cases h : i ∈ P.lasts
  · simp [h, or_comm]
  · simp [h]

theorem mem_positions_of_mem_firsts {P : RegularExpression ι} {i : ι} (h : i ∈ P.firsts) :
    i ∈ P.positions := by
  induction P with
  | zero => exact absurd h (Finset.notMem_empty i)
  | epsilon => exact absurd h (Finset.notMem_empty i)
  | char j => exact List.mem_singleton.mpr (Finset.mem_singleton.mp h)
  | plus P Q ihP ihQ =>
    rcases Finset.mem_union.mp h with h | h
    · exact List.mem_append_left _ (ihP h)
    · exact List.mem_append_right _ (ihQ h)
  | comp P Q ihP ihQ =>
    rcases mem_firsts_mul.mp h with h | h
    · exact List.mem_append_left _ (ihP h)
    · exact List.mem_append_right _ (ihQ h.2)
  | star P ih => exact ih h

theorem mem_positions_of_mem_lasts {P : RegularExpression ι} {i : ι} (h : i ∈ P.lasts) :
    i ∈ P.positions := by
  induction P with
  | zero => exact absurd h (Finset.notMem_empty i)
  | epsilon => exact absurd h (Finset.notMem_empty i)
  | char j => exact List.mem_singleton.mpr (Finset.mem_singleton.mp h)
  | plus P Q ihP ihQ =>
    rcases Finset.mem_union.mp h with h | h
    · exact List.mem_append_left _ (ihP h)
    · exact List.mem_append_right _ (ihQ h)
  | comp P Q ihP ihQ =>
    rcases mem_lasts_mul.mp h with h | h
    · exact List.mem_append_right _ (ihQ h)
    · exact List.mem_append_left _ (ihP h.2)
  | star P ih => exact ih h

/-- Both a position that is followed and one that follows it are positions of the expression. -/
theorem mem_positions_of_mem_follows {P : RegularExpression ι} {i j : ι} (h : j ∈ P.follows i) :
    i ∈ P.positions ∧ j ∈ P.positions := by
  induction P with
  | zero => exact absurd h (Finset.notMem_empty j)
  | epsilon => exact absurd h (Finset.notMem_empty j)
  | char k => exact absurd h (Finset.notMem_empty j)
  | plus P Q ihP ihQ =>
    rcases Finset.mem_union.mp h with h | h
    · exact ⟨List.mem_append_left _ (ihP h).1, List.mem_append_left _ (ihP h).2⟩
    · exact ⟨List.mem_append_right _ (ihQ h).1, List.mem_append_right _ (ihQ h).2⟩
  | comp P Q ihP ihQ =>
    rcases mem_follows_mul.mp h with (h | h) | h
    · exact ⟨List.mem_append_left _ (ihP h).1, List.mem_append_left _ (ihP h).2⟩
    · exact ⟨List.mem_append_right _ (ihQ h).1, List.mem_append_right _ (ihQ h).2⟩
    · exact ⟨List.mem_append_left _ (mem_positions_of_mem_lasts h.1),
        List.mem_append_right _ (mem_positions_of_mem_firsts h.2)⟩
  | star P ih =>
    rcases mem_follows_star.mp h with h | h
    · exact ih h
    · exact ⟨mem_positions_of_mem_lasts h.1, mem_positions_of_mem_firsts h.2⟩

/-! ## Paths through the positions -/

/-- A word that begins in `F`, ends in `L` and goes from each position to one related to it. -/
structure IsPath (F L : Finset ι) (R : ι → ι → Prop) (w : List ι) : Prop where
  nonempty : w ≠ []
  head : ∀ i ∈ w.head?, i ∈ F
  last : ∀ i ∈ w.getLast?, i ∈ L
  chain : w.IsChain R

namespace IsPath

variable {F F' L L' : Finset ι} {R R' : ι → ι → Prop} {u v w : List ι}

omit [DecidableEq ι] in
theorem mono (h : IsPath F L R w) (hF : F ⊆ F') (hL : L ⊆ L') (hR : ∀ i j, R i j → R' i j) :
    IsPath F' L' R' w where
  nonempty := h.nonempty
  head i hi := hF (h.head i hi)
  last i hi := hL (h.last i hi)
  chain := h.chain.imp hR

omit [DecidableEq ι] in
theorem append (hu : IsPath F L R u) (hv : IsPath F' L' R v)
    (hlink : ∀ i ∈ L, ∀ j ∈ F', R i j) : IsPath F L' R (u ++ v) where
  nonempty h := hu.nonempty (List.append_eq_nil_iff.mp h).1
  head i hi := by
    rw [List.head?_append_of_ne_nil u hu.nonempty] at hi
    exact hu.head i hi
  last i hi := by
    rw [List.getLast?_append_of_ne_nil u hv.nonempty] at hi
    exact hv.last i hi
  chain := List.isChain_append.mpr ⟨hu.chain, hv.chain, fun i hi j hj =>
    hlink i (hu.last i hi) j (hv.head j hj)⟩

omit [DecidableEq ι] in
/-- A part of the positions that the relation does not leave holds the rest of a chain that
begins in it. -/
theorem chain_restrict {A : ι → Prop} (hA : ∀ i, A i → ∀ j, R i j → R' i j ∧ A j)
    (hhead : ∀ i ∈ w.head?, A i) (h : w.IsChain R) : w.IsChain R' ∧ ∀ i ∈ w, A i := by
  induction w with
  | nil => exact ⟨.nil, fun i hi => absurd hi List.not_mem_nil⟩
  | cons i w ih =>
    have hi : A i := hhead i rfl
    obtain ⟨hnext, hrest⟩ := List.isChain_cons.mp h
    obtain ⟨hchain, hall⟩ := ih (fun j hj => (hA i hi j (hnext j hj)).2) hrest
    refine ⟨List.isChain_cons.mpr ⟨fun j hj => (hA i hi j (hnext j hj)).1, hchain⟩, ?_⟩
    exact List.forall_mem_cons.mpr ⟨hi, hall⟩

omit [DecidableEq ι] in
/-- A chain of two relations is one of the first of them, or it is cut at the first link that is
of the second. -/
theorem exists_first_link {S T : ι → ι → Prop} (hw : w ≠ [])
    (h : w.IsChain fun i j => S i j ∨ T i j) :
    w.IsChain S ∨ ∃ u v, w = u ++ v ∧ u ≠ [] ∧ v ≠ [] ∧ u.IsChain S ∧
      (∀ i ∈ u.getLast?, ∀ j ∈ v.head?, T i j) ∧ v.IsChain fun i j => S i j ∨ T i j := by
  induction w with
  | nil => exact absurd rfl hw
  | cons i w ih =>
    cases w with
    | nil => exact .inl (.singleton i)
    | cons j w =>
      obtain ⟨hij, hrest⟩ := List.isChain_cons_cons.mp h
      rcases hij with hij | hij
      · rcases ih (List.cons_ne_nil j w) hrest with hchain | hcut
        · exact .inl (List.isChain_cons_cons.mpr ⟨hij, hchain⟩)
        · obtain ⟨u, v, heq, hu, hv, hchain, hlink, hrestv⟩ := hcut
          obtain ⟨k, u, rfl⟩ := List.exists_cons_of_ne_nil hu
          obtain ⟨rfl, rfl⟩ := List.cons.inj heq
          refine .inr ⟨i :: j :: u, v, rfl, List.cons_ne_nil _ _, hv,
            List.isChain_cons_cons.mpr ⟨hij, hchain⟩, ?_, hrestv⟩
          rw [List.getLast?_cons_cons]
          exact hlink
      · refine .inr ⟨[i], j :: w, rfl, List.cons_ne_nil _ _, List.cons_ne_nil _ _,
          .singleton i, ?_, hrest⟩
        intro i' hi' j' hj'
        cases hi'
        cases hj'
        exact hij

end IsPath

/-- The paths of an expression. -/
def Path (P : RegularExpression ι) (w : List ι) : Prop :=
  IsPath P.firsts P.lasts (fun i j => j ∈ P.follows i) w

theorem path_mul_left {P Q : RegularExpression ι} {w : List ι} (h : P.Path w)
    (hQ : Q.matchEpsilon = true) : (P * Q).Path w :=
  h.mono (fun _ hi => mem_firsts_mul.mpr (.inl hi)) (fun _ hi => mem_lasts_mul.mpr (.inr ⟨hQ, hi⟩))
    fun _ _ hij => mem_follows_mul.mpr (.inl (.inl hij))

theorem path_mul_right {P Q : RegularExpression ι} {w : List ι} (h : Q.Path w)
    (hP : P.matchEpsilon = true) : (P * Q).Path w :=
  h.mono (fun _ hi => mem_firsts_mul.mpr (.inr ⟨hP, hi⟩)) (fun _ hi => mem_lasts_mul.mpr (.inl hi))
    fun _ _ hij => mem_follows_mul.mpr (.inl (.inr hij))

theorem path_mul_append {P Q : RegularExpression ι} {u v : List ι} (hu : P.Path u)
    (hv : Q.Path v) : (P * Q).Path (u ++ v) := by
  have hu' : IsPath (P * Q).firsts P.lasts (fun i j => j ∈ (P * Q).follows i) u :=
    hu.mono (fun _ hi => mem_firsts_mul.mpr (.inl hi)) (Finset.Subset.refl _)
      fun _ _ hij => mem_follows_mul.mpr (.inl (.inl hij))
  have hv' : IsPath Q.firsts (P * Q).lasts (fun i j => j ∈ (P * Q).follows i) v :=
    hv.mono (Finset.Subset.refl _) (fun _ hi => mem_lasts_mul.mpr (.inl hi))
      fun _ _ hij => mem_follows_mul.mpr (.inl (.inr hij))
  exact hu'.append hv' fun i hi j hj => mem_follows_mul.mpr (.inr ⟨hi, hj⟩)

theorem path_star_flatten {P : RegularExpression ι} {parts : List (List ι)} (hne : parts ≠ [])
    (h : ∀ u ∈ parts, P.Path u) : (star P).Path parts.flatten := by
  have hstar : ∀ u, P.Path u → (star P).Path u := fun u hu =>
    hu.mono (Finset.Subset.refl _) (Finset.Subset.refl _)
      fun _ _ hij => mem_follows_star.mpr (.inl hij)
  induction parts with
  | nil => exact absurd rfl hne
  | cons u parts ih =>
    obtain ⟨hu, hparts⟩ := List.forall_mem_cons.mp h
    cases parts with
    | nil =>
      rw [List.flatten_singleton]
      exact hstar u hu
    | cons v parts =>
      rw [List.flatten_cons]
      exact (hstar u hu).append (ih (List.cons_ne_nil _ _) hparts)
        fun i hi j hj => mem_follows_star.mpr (.inr ⟨hi, hj⟩)

/-- A word of an expression is one of its paths. -/
theorem path_of_mem {P : RegularExpression ι} {w : List ι} (h : w ∈ P.matches') (hw : w ≠ []) :
    P.Path w := by
  induction P generalizing w with
  | zero => exact absurd h (Language.notMem_zero w)
  | epsilon => exact absurd h hw
  | char i =>
    rw [matches'_char] at h
    rw [Set.mem_singleton_iff.mp h]
    refine ⟨List.cons_ne_nil _ _, fun j hj => ?_, fun j hj => ?_, .singleton i⟩
    · cases hj
      exact Finset.mem_singleton_self i
    · cases hj
      exact Finset.mem_singleton_self i
  | plus P Q ihP ihQ =>
    rw [plus_def, matches'_add, Language.mem_add] at h
    rcases h with h | h
    · exact (ihP h hw).mono Finset.subset_union_left Finset.subset_union_left
        fun _ _ hij => Finset.mem_union_left _ hij
    · exact (ihQ h hw).mono Finset.subset_union_right Finset.subset_union_right
        fun _ _ hij => Finset.mem_union_right _ hij
  | comp P Q ihP ihQ =>
    rw [comp_def, matches'_mul, Language.mem_mul] at h
    obtain ⟨u, hu, v, hv, rfl⟩ := h
    by_cases hu0 : u = []
    · subst hu0
      exact path_mul_right (ihQ hv hw) ((nil_mem_matches'_iff P).mp hu)
    by_cases hv0 : v = []
    · subst hv0
      rw [List.append_nil] at hw ⊢
      exact path_mul_left (ihP hu hw) ((nil_mem_matches'_iff Q).mp hv)
    · exact path_mul_append (ihP hu hu0) (ihQ hv hv0)
  | star P ih =>
    rw [matches'_star, Language.mem_kstar_iff_exists_nonempty] at h
    obtain ⟨parts, rfl, hparts⟩ := h
    have hne : parts ≠ [] := fun h0 => hw (by rw [h0, List.flatten_nil])
    exact path_star_flatten hne fun u hu => ih (hparts u hu).1 (hparts u hu).2

/-! ## Linear expressions -/

/-- A word that begins in one of two disjoint expressions stays in it, as long as it goes from its
positions only where one of the two goes. -/
theorem path_of_disjoint {P Q : RegularExpression ι} {R : ι → ι → Prop} {w : List ι}
    (hdisjoint : P.positions.Disjoint Q.positions)
    (hR : ∀ i ∈ Q.positions, ∀ j, R i j → j ∈ P.follows i ∨ j ∈ Q.follows i)
    (hw : w ≠ []) (hhead : ∀ i ∈ w.head?, i ∈ Q.firsts)
    (hlast : ∀ i ∈ w.getLast?, i ∈ P.lasts ∨ i ∈ Q.lasts) (h : w.IsChain R) : Q.Path w := by
  have hstep : ∀ i, i ∈ Q.positions → ∀ j, R i j → j ∈ Q.follows i ∧ j ∈ Q.positions := by
    intro i hi j hij
    rcases hR i hi j hij with hP | hQ
    · exact absurd hi (hdisjoint (mem_positions_of_mem_follows hP).1)
    · exact ⟨hQ, (mem_positions_of_mem_follows hQ).2⟩
  obtain ⟨hchain, hall⟩ := IsPath.chain_restrict hstep
    (fun i hi => mem_positions_of_mem_firsts (hhead i hi)) h
  refine ⟨hw, hhead, fun i hi => ?_, hchain⟩
  refine (hlast i hi).resolve_left fun hP => ?_
  exact hdisjoint (mem_positions_of_mem_lasts hP) (hall i (List.mem_of_getLast? hi))

/-- A path of a concatenation is a path of its right part behind an empty left part, one of its
left part before an empty right part, or one of each. -/
theorem path_mul_cases {P Q : RegularExpression ι} {w : List ι}
    (hdisjoint : P.positions.Disjoint Q.positions) (h : (P * Q).Path w) :
    P.matchEpsilon = true ∧ Q.Path w ∨ P.Path w ∧ Q.matchEpsilon = true ∨
      ∃ u v, w = u ++ v ∧ P.Path u ∧ Q.Path v := by
  have hleft : ∀ i ∈ P.positions, ∀ j,
      j ∈ P.follows i ∨ j ∈ Q.follows i → j ∈ Q.follows i ∨ j ∈ P.follows i :=
    fun _ _ _ hij => hij.symm
  have hright : ∀ i ∈ Q.positions, ∀ j, j ∈ (P * Q).follows i →
      j ∈ P.follows i ∨ j ∈ Q.follows i := by
    intro i hi j hij
    refine (mem_follows_mul.mp hij).resolve_right fun hlink => ?_
    exact hdisjoint (mem_positions_of_mem_lasts hlink.1) hi
  have hlast : ∀ i ∈ w.getLast?, i ∈ Q.lasts ∨ Q.matchEpsilon = true ∧ i ∈ P.lasts :=
    fun i hi => mem_lasts_mul.mp (h.last i hi)
  obtain ⟨i, w', rfl⟩ := List.exists_cons_of_ne_nil h.nonempty
  have hbegins : ∀ {A : Finset ι}, i ∈ A → ∀ k ∈ (i :: w').head?, k ∈ A := by
    intro A hi k hk
    cases hk
    exact hi
  rcases mem_firsts_mul.mp (h.head i rfl) with hi | hi
  · have hchain : (i :: w').IsChain fun i j =>
        (j ∈ P.follows i ∨ j ∈ Q.follows i) ∨ i ∈ P.lasts ∧ j ∈ Q.firsts :=
      h.chain.imp fun _ _ hij => mem_follows_mul.mp hij
    rcases IsPath.exists_first_link h.nonempty hchain with hS | hcut
    · -- The word never leaves the left part, so it ends in it.
      have hP : P.Path (i :: w') := path_of_disjoint hdisjoint.symm hleft h.nonempty (hbegins hi)
        (fun k hk => (hlast k hk).imp_right And.right) hS
      obtain ⟨k, hk⟩ := Option.ne_none_iff_exists'.mp fun h0 =>
        h.nonempty (List.getLast?_eq_none_iff.mp h0)
      rcases hlast k hk with hQ | hQ
      · exact absurd (mem_positions_of_mem_lasts hQ)
          (hdisjoint (mem_positions_of_mem_lasts (hP.last k hk)))
      · exact .inr (.inl ⟨hP, hQ.1⟩)
    · obtain ⟨u, v, heq, hu, hv, hS, hlink, hrest⟩ := hcut
      obtain ⟨j, v, rfl⟩ := List.exists_cons_of_ne_nil hv
      obtain ⟨k, hk⟩ := Option.ne_none_iff_exists'.mp fun h0 =>
        hu (List.getLast?_eq_none_iff.mp h0)
      have hj : j ∈ Q.firsts := (hlink k hk j rfl).2
      refine .inr (.inr ⟨u, j :: v, heq, ?_, ?_⟩)
      · refine path_of_disjoint hdisjoint.symm hleft hu (fun l hl => ?_)
          (fun l hl => .inr (hlink l hl j rfl).1) hS
        rw [← List.head?_append_of_ne_nil u hu, ← heq] at hl
        exact hbegins hi l hl
      · refine path_of_disjoint hdisjoint hright (List.cons_ne_nil j v) (fun l hl => ?_)
          (fun l hl => ?_) (hrest.imp fun _ _ hij => mem_follows_mul.mpr hij)
        · cases hl
          exact hj
        · rw [heq, List.getLast?_append_of_ne_nil u (List.cons_ne_nil j v)] at hlast
          exact (hlast l hl).symm.imp_left And.right
  · exact .inl ⟨hi.1, path_of_disjoint hdisjoint hright h.nonempty (hbegins hi.2)
      (fun k hk => (hlast k hk).symm.imp_left And.right) h.chain⟩

/-- A path of a repetition is a path of what is repeated, or one before a path of the
repetition. -/
theorem path_star_cases {P : RegularExpression ι} {w : List ι} (h : (star P).Path w) :
    P.Path w ∨ ∃ u v, w = u ++ v ∧ u ≠ [] ∧ P.Path u ∧ (star P).Path v := by
  have hchain : w.IsChain fun i j => j ∈ P.follows i ∨ i ∈ P.lasts ∧ j ∈ P.firsts :=
    h.chain.imp fun _ _ hij => mem_follows_star.mp hij
  rcases IsPath.exists_first_link h.nonempty hchain with hS | hcut
  · exact .inl ⟨h.nonempty, h.head, h.last, hS⟩
  · obtain ⟨u, v, rfl, hu, hv, hS, hlink, hrest⟩ := hcut
    obtain ⟨j, v, rfl⟩ := List.exists_cons_of_ne_nil hv
    obtain ⟨k, hk⟩ := Option.ne_none_iff_exists'.mp fun h0 =>
      hu (List.getLast?_eq_none_iff.mp h0)
    refine .inr ⟨u, j :: v, rfl, hu, ⟨hu, fun l hl => ?_, fun l hl => (hlink l hl j rfl).1, hS⟩,
      ⟨List.cons_ne_nil j v, fun l hl => ?_, fun l hl => ?_,
        hrest.imp fun _ _ hij => mem_follows_star.mpr hij⟩⟩
    · rw [← List.head?_append_of_ne_nil u hu] at hl
      exact h.head l hl
    · cases hl
      exact (hlink k hk j rfl).2
    · rw [← List.getLast?_append_of_ne_nil u (List.cons_ne_nil j v)] at hl
      exact h.last l hl

/-- In a linear expression each of its paths is a word of it. -/
theorem mem_of_path {P : RegularExpression ι} (hlinear : P.Linear) {w : List ι} (h : P.Path w) :
    w ∈ P.matches' := by
  induction P generalizing w with
  | zero =>
    obtain ⟨i, w, rfl⟩ := List.exists_cons_of_ne_nil h.nonempty
    exact absurd (h.head i rfl) (Finset.notMem_empty i)
  | epsilon =>
    obtain ⟨i, w, rfl⟩ := List.exists_cons_of_ne_nil h.nonempty
    exact absurd (h.head i rfl) (Finset.notMem_empty i)
  | char k =>
    obtain ⟨i, w, rfl⟩ := List.exists_cons_of_ne_nil h.nonempty
    have hi : i = k := Finset.mem_singleton.mp (h.head i rfl)
    cases w with
    | nil =>
      rw [hi, matches'_char]
      exact Set.mem_singleton _
    | cons j w =>
      exact absurd (List.isChain_cons_cons.mp h.chain).1 (Finset.notMem_empty j)
  | plus P Q ihP ihQ =>
    obtain ⟨hP, hQ, hdisjoint⟩ := List.nodup_append'.mp hlinear
    have hstep : ∀ i j, j ∈ (P + Q).follows i → j ∈ P.follows i ∨ j ∈ Q.follows i :=
      fun _ _ hij => Finset.mem_union.mp hij
    have hlast : ∀ k ∈ w.getLast?, k ∈ P.lasts ∨ k ∈ Q.lasts :=
      fun k hk => Finset.mem_union.mp (h.last k hk)
    rw [plus_def, matches'_add, Language.mem_add]
    obtain ⟨i, w, rfl⟩ := List.exists_cons_of_ne_nil h.nonempty
    rcases Finset.mem_union.mp (h.head i rfl) with hi | hi
    · refine .inl (ihP hP (path_of_disjoint hdisjoint.symm (fun i _ j hij => (hstep i j hij).symm)
        h.nonempty (fun k hk => ?_) (fun k hk => (hlast k hk).symm) h.chain))
      cases hk
      exact hi
    · refine .inr (ihQ hQ (path_of_disjoint hdisjoint (fun i _ j hij => hstep i j hij)
        h.nonempty (fun k hk => ?_) hlast h.chain))
      cases hk
      exact hi
  | comp P Q ihP ihQ =>
    obtain ⟨hP, hQ, hdisjoint⟩ := List.nodup_append'.mp hlinear
    rw [comp_def, matches'_mul, Language.mem_mul]
    rcases path_mul_cases hdisjoint h with hright | hleft | hboth
    · exact ⟨[], (nil_mem_matches'_iff P).mpr hright.1, w, ihQ hQ hright.2, rfl⟩
    · exact ⟨w, ihP hP hleft.1, [], (nil_mem_matches'_iff Q).mpr hleft.2, List.append_nil w⟩
    · obtain ⟨u, v, heq, hu, hv⟩ := hboth
      exact ⟨u, ihP hP hu, v, ihQ hQ hv, heq.symm⟩
  | star P ih =>
    rw [matches'_star]
    -- The word gets shorter by a nonempty word of the repeated expression.
    induction hlength : w.length using Nat.strong_induction_on generalizing w with
    | _ n ihn =>
      rcases path_star_cases h with hP | hcut
      · exact Language.mem_kstar.mpr ⟨[w], (List.flatten_singleton).symm,
          fun u hu => List.mem_singleton.mp hu ▸ ih hlinear hP⟩
      · obtain ⟨u, v, rfl, hu0, hu, hv⟩ := hcut
        have hpos : 0 < u.length := List.length_pos_iff.mpr hu0
        rw [List.length_append] at hlength
        obtain ⟨parts, hflat, hparts⟩ := Language.mem_kstar.mp (ihn v.length (by omega) hv rfl)
        exact Language.mem_kstar.mpr ⟨u :: parts, by rw [hflat, List.flatten_cons],
          List.forall_mem_cons.mpr ⟨ih hlinear hu, hparts⟩⟩

/-- The nonempty words of a linear expression are its paths. -/
theorem mem_matches'_iff {P : RegularExpression ι} (hlinear : P.Linear) {w : List ι}
    (hw : w ≠ []) : w ∈ P.matches' ↔ P.Path w :=
  ⟨fun h => path_of_mem h hw, mem_of_path hlinear⟩

/-! ## Expressions without the empty language -/

/-- The empty language is no part of the expression. -/
def ZeroFree : RegularExpression ι → Prop
  | 0 => False
  | 1 => True
  | char _ => True
  | P + Q => P.ZeroFree ∧ Q.ZeroFree
  | P * Q => P.ZeroFree ∧ Q.ZeroFree
  | star P => P.ZeroFree

omit [DecidableEq ι] in
theorem exists_mem_matches' {P : RegularExpression ι} (h : P.ZeroFree) : ∃ w, w ∈ P.matches' := by
  induction P with
  | zero => exact absurd h id
  | epsilon => exact ⟨[], Language.nil_mem_one⟩
  | char i => exact ⟨[i], Set.mem_singleton _⟩
  | plus P Q ihP _ =>
    obtain ⟨u, hu⟩ := ihP h.1
    exact ⟨u, (Language.mem_add _ _ u).mpr (.inl hu)⟩
  | comp P Q ihP ihQ =>
    obtain ⟨u, hu⟩ := ihP h.1
    obtain ⟨v, hv⟩ := ihQ h.2
    exact ⟨u ++ v, Language.append_mem_mul hu hv⟩
  | star P _ => exact ⟨[], Language.nil_mem_kstar _⟩

theorem firsts_nonempty {P : RegularExpression ι} (h : P.ZeroFree)
    (hP : ¬P.matchEpsilon = true) : P.firsts.Nonempty := by
  obtain ⟨w, hw⟩ := exists_mem_matches' h
  have hne : w ≠ [] := by
    rintro rfl
    exact hP ((nil_mem_matches'_iff P).mp hw)
  obtain ⟨i, w, rfl⟩ := List.exists_cons_of_ne_nil hne
  exact ⟨i, (path_of_mem hw hne).head i rfl⟩

/-- From every position a path goes on to a last one. -/
theorem exists_path_from {P : RegularExpression ι} (h : P.ZeroFree) {i : ι}
    (hi : i ∈ P.positions) : ∃ w, IsPath {i} P.lasts (fun i j => j ∈ P.follows i) w := by
  induction P generalizing i with
  | zero => exact absurd h id
  | epsilon => exact absurd hi List.not_mem_nil
  | char k =>
    have hik : i = k := List.mem_singleton.mp hi
    subst hik
    have hword : [i] ∈ (char i).matches' := Set.mem_singleton [i]
    exact ⟨[i], path_of_mem hword (List.cons_ne_nil i [])⟩
  | plus P Q ihP ihQ =>
    rcases List.mem_append.mp hi with hi | hi
    · obtain ⟨w, hw⟩ := ihP h.1 hi
      exact ⟨w, hw.mono (Finset.Subset.refl _) Finset.subset_union_left
        fun _ _ hij => Finset.mem_union_left _ hij⟩
    · obtain ⟨w, hw⟩ := ihQ h.2 hi
      exact ⟨w, hw.mono (Finset.Subset.refl _) Finset.subset_union_right
        fun _ _ hij => Finset.mem_union_right _ hij⟩
  | comp P Q ihP ihQ =>
    have hright : ∀ {j w}, IsPath {j} Q.lasts (fun i j => j ∈ Q.follows i) w →
        IsPath {j} (P * Q).lasts (fun i j => j ∈ (P * Q).follows i) w := fun hw =>
      hw.mono (Finset.Subset.refl _) (fun _ hi => mem_lasts_mul.mpr (.inl hi))
        fun _ _ hij => mem_follows_mul.mpr (.inl (.inr hij))
    rcases List.mem_append.mp hi with hi | hi
    · obtain ⟨u, hu⟩ := ihP h.1 hi
      have hu' : IsPath {i} P.lasts (fun i j => j ∈ (P * Q).follows i) u :=
        hu.mono (Finset.Subset.refl _) (Finset.Subset.refl _)
          fun _ _ hij => mem_follows_mul.mpr (.inl (.inl hij))
      by_cases hQ : Q.matchEpsilon = true
      · exact ⟨u, hu'.mono (Finset.Subset.refl _) (fun _ hi => mem_lasts_mul.mpr (.inr ⟨hQ, hi⟩))
          fun _ _ hij => hij⟩
      · obtain ⟨j, hj⟩ := firsts_nonempty h.2 hQ
        obtain ⟨v, hv⟩ := ihQ h.2 (mem_positions_of_mem_firsts hj)
        refine ⟨u ++ v, hu'.append (hright hv) fun k hk l hl => ?_⟩
        rw [Finset.mem_singleton.mp hl]
        exact mem_follows_mul.mpr (.inr ⟨hk, hj⟩)
    · obtain ⟨v, hv⟩ := ihQ h.2 hi
      exact ⟨v, hright hv⟩
  | star P ih =>
    obtain ⟨w, hw⟩ := ih h hi
    exact ⟨w, hw.mono (Finset.Subset.refl _) (Finset.Subset.refl _)
      fun _ _ hij => mem_follows_star.mpr (.inl hij)⟩

end RegularExpression
