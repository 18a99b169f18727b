import Mathlib.Data.Finset.Union
import Mathlib.Data.List.Forall2
import P4LS.Library.Positions

/-!
# Reading letters at the positions of a regular expression

Every position reads some letters.  The automaton of the expression keeps the set of positions
that may read the next letter; a position is in it after a text exactly when the text can be read
at positions that lead there.
-/

namespace RegularExpression

open Computability

variable {ι α : Type} (reads : ι → α → Bool)

/-- The letters of the text are read one after another at the positions of the word. -/
abbrev ReadAt (w : List ι) (x : List α) : Prop := List.Forall₂ (fun i a => reads i a = true) w x

/-- The texts that are read at the words of an expression. -/
def texts (P : RegularExpression ι) : Language α := {x | ∃ w ∈ P.matches', ReadAt reads w x}

variable {reads}

theorem mem_texts {P : RegularExpression ι} {x : List α} :
    x ∈ P.texts reads ↔ ∃ w ∈ P.matches', ReadAt reads w x := Iff.rfl

theorem readAt_nil_iff {x : List α} : ReadAt reads [] x ↔ x = [] := List.forall₂_nil_left_iff

theorem readAt_cons_iff {i : ι} {w : List ι} {x : List α} :
    ReadAt reads (i :: w) x ↔ ∃ a y, reads i a = true ∧ ReadAt reads w y ∧ x = a :: y :=
  List.forall₂_cons_left_iff

theorem readAt_append_iff {u v : List ι} {x : List α} :
    ReadAt reads (u ++ v) x ↔ ∃ y z, x = y ++ z ∧ ReadAt reads u y ∧ ReadAt reads v z := by
  constructor
  · intro h
    exact ⟨_, _, (List.take_append_drop u.length x).symm,
      (List.forall₂_take_append x u v h.flip).flip, (List.forall₂_drop_append x u v h.flip).flip⟩
  · rintro ⟨y, z, rfl, hu, hv⟩
    exact List.rel_append hu hv

@[simp] theorem texts_epsilon : (1 : RegularExpression ι).texts reads = 1 := by
  ext x
  rw [mem_texts, matches'_epsilon, Language.mem_one]
  constructor
  · rintro ⟨w, hw, hread⟩
    rw [(Language.mem_one w).mp hw] at hread
    exact readAt_nil_iff.mp hread
  · rintro rfl
    exact ⟨[], Language.nil_mem_one, .nil⟩

theorem mem_texts_char {i : ι} {x : List α} :
    x ∈ (char i).texts reads ↔ ∃ a, x = [a] ∧ reads i a = true := by
  rw [mem_texts, matches'_char]
  constructor
  · rintro ⟨w, hw, hread⟩
    rw [Set.mem_singleton_iff.mp hw] at hread
    obtain ⟨a, y, ha, hy, rfl⟩ := readAt_cons_iff.mp hread
    rw [readAt_nil_iff.mp hy]
    exact ⟨a, rfl, ha⟩
  · rintro ⟨a, rfl, ha⟩
    exact ⟨[i], Set.mem_singleton _, .cons ha .nil⟩

@[simp] theorem texts_add (P Q : RegularExpression ι) :
    (P + Q).texts reads = P.texts reads + Q.texts reads := by
  ext x
  rw [Language.mem_add, mem_texts, mem_texts, mem_texts, ← exists_or, matches'_add]
  refine exists_congr fun w => ?_
  rw [Language.mem_add, or_and_right]

@[simp] theorem texts_mul (P Q : RegularExpression ι) :
    (P * Q).texts reads = P.texts reads * Q.texts reads := by
  ext x
  rw [Language.mem_mul, mem_texts, matches'_mul]
  constructor
  · rintro ⟨w, hw, hread⟩
    obtain ⟨u, hu, v, hv, rfl⟩ := Language.mem_mul.mp hw
    obtain ⟨y, z, rfl, hy, hz⟩ := readAt_append_iff.mp hread
    exact ⟨y, ⟨u, hu, hy⟩, z, ⟨v, hv, hz⟩, rfl⟩
  · rintro ⟨y, ⟨u, hu, hy⟩, z, ⟨v, hv, hz⟩, rfl⟩
    exact ⟨u ++ v, Language.append_mem_mul hu hv, readAt_append_iff.mpr ⟨y, z, rfl, hy, hz⟩⟩

theorem readAt_flatten_iff {L : Language ι} {x : List α} :
    (∃ parts : List (List ι), (∀ u ∈ parts, u ∈ L) ∧ ReadAt reads parts.flatten x) ↔
      ∃ pieces : List (List α), x = pieces.flatten ∧
        ∀ y ∈ pieces, ∃ u ∈ L, ReadAt reads u y := by
  constructor
  · rintro ⟨parts, hparts, hread⟩
    induction parts generalizing x with
    | nil => exact ⟨[], readAt_nil_iff.mp hread, fun y hy => absurd hy List.not_mem_nil⟩
    | cons u parts ih =>
      obtain ⟨hu, hparts⟩ := List.forall_mem_cons.mp hparts
      rw [List.flatten_cons] at hread
      obtain ⟨y, z, rfl, hy, hz⟩ := readAt_append_iff.mp hread
      obtain ⟨pieces, rfl, hpieces⟩ := ih hparts hz
      exact ⟨y :: pieces, rfl, List.forall_mem_cons.mpr ⟨⟨u, hu, hy⟩, hpieces⟩⟩
  · rintro ⟨pieces, rfl, hpieces⟩
    induction pieces with
    | nil => exact ⟨[], fun u hu => absurd hu List.not_mem_nil, .nil⟩
    | cons y pieces ih =>
      obtain ⟨⟨u, hu, hy⟩, hpieces⟩ := List.forall_mem_cons.mp hpieces
      obtain ⟨parts, hparts, hread⟩ := ih hpieces
      exact ⟨u :: parts, List.forall_mem_cons.mpr ⟨hu, hparts⟩,
        readAt_append_iff.mpr ⟨y, _, rfl, hy, hread⟩⟩

@[simp] theorem texts_star (P : RegularExpression ι) :
    (star P).texts reads = (P.texts reads)∗ := by
  ext x
  rw [Language.mem_kstar, mem_texts, matches'_star]
  refine Iff.trans ?_ readAt_flatten_iff
  constructor
  · rintro ⟨w, hw, hread⟩
    obtain ⟨parts, rfl, hparts⟩ := Language.mem_kstar.mp hw
    exact ⟨parts, hparts, hread⟩
  · rintro ⟨parts, hparts, hread⟩
    exact ⟨parts.flatten, Language.mem_kstar.mpr ⟨parts, rfl, hparts⟩, hread⟩

/-! ## Letters up to a relation -/

/-- When every position reads the letters related to those it read, an expression has the texts
related to its texts. -/
theorem mem_texts_of_related {P : RegularExpression ι} {R : α → α → Prop}
    {reads' : ι → α → Bool}
    (h : ∀ i ∈ P.positions, ∀ a, reads' i a = true ↔ ∃ b, R a b ∧ reads i b = true)
    {x : List α} : x ∈ P.texts reads' ↔ ∃ y, List.Forall₂ R x y ∧ y ∈ P.texts reads := by
  have hread : ∀ {w : List ι} {x : List α}, (∀ i ∈ w, i ∈ P.positions) →
      (ReadAt reads' w x ↔ ∃ y, List.Forall₂ R x y ∧ ReadAt reads w y) := by
    intro w x hw
    induction w generalizing x with
    | nil =>
      rw [readAt_nil_iff]
      constructor
      · rintro rfl
        exact ⟨[], .nil, .nil⟩
      · rintro ⟨y, hxy, hy⟩
        rw [readAt_nil_iff.mp hy] at hxy
        exact List.forall₂_nil_right_iff.mp hxy
    | cons i w ih =>
      obtain ⟨hi, hw⟩ := List.forall_mem_cons.mp hw
      constructor
      · intro hx
        obtain ⟨a, x', ha, hx', rfl⟩ := readAt_cons_iff.mp hx
        obtain ⟨b, hab, hb⟩ := (h i hi a).mp ha
        obtain ⟨y, hxy, hy⟩ := (ih hw).mp hx'
        exact ⟨b :: y, .cons hab hxy, .cons hb hy⟩
      · rintro ⟨y, hxy, hy⟩
        obtain ⟨b, y', hb, hy', rfl⟩ := readAt_cons_iff.mp hy
        obtain ⟨a, x', hab, hxy', rfl⟩ := List.forall₂_cons_right_iff.mp hxy
        exact .cons ((h i hi a).mpr ⟨b, hab, hb⟩) ((ih hw).mpr ⟨y', hxy', hy'⟩)
  rw [mem_texts]
  constructor
  · rintro ⟨w, hw, hx⟩
    obtain ⟨y, hxy, hy⟩ := (hread (mem_positions_of_mem hw)).mp hx
    exact ⟨y, hxy, w, hw, hy⟩
  · rintro ⟨y, hxy, w, hw, hy⟩
    exact ⟨w, hw, (hread (mem_positions_of_mem hw)).mpr ⟨y, hxy, hy⟩⟩

/-! ## The automaton -/

variable [DecidableEq ι] (reads)

/-- The positions that follow those of the set that read the letter. -/
def next (P : RegularExpression ι) (S : Finset ι) (a : α) : Finset ι :=
  S.biUnion fun i => if reads i a then P.follows i else ∅

def after (P : RegularExpression ι) (S : Finset ι) (x : List α) : Finset ι :=
  x.foldl (P.next reads) S

variable {reads}

theorem mem_next {P : RegularExpression ι} {S : Finset ι} {a : α} {j : ι} :
    j ∈ P.next reads S a ↔ ∃ i ∈ S, reads i a = true ∧ j ∈ P.follows i := by
  rw [next, Finset.mem_biUnion]
  refine exists_congr fun i => and_congr_right fun _ => ?_
  by_cases h : reads i a = true
  · simp [h]
  · simp [h]

/-- After a text the automaton is at the positions that end a chain whose other positions read
the text. -/
theorem mem_after {P : RegularExpression ι} {S : Finset ι} {x : List α} {j : ι} :
    j ∈ P.after reads S x ↔ ∃ w, ReadAt reads w x ∧ (∀ i ∈ (w ++ [j]).head?, i ∈ S) ∧
      (w ++ [j]).IsChain fun i j => j ∈ P.follows i := by
  induction x generalizing S with
  | nil =>
    constructor
    · intro h
      refine ⟨[], .nil, fun i hi => ?_, .singleton j⟩
      cases hi
      exact h
    · rintro ⟨w, hread, hhead, _⟩
      rw [List.forall₂_nil_right_iff.mp hread] at hhead
      exact hhead j rfl
  | cons a x ih =>
    rw [after, List.foldl_cons, ← after, ih]
    constructor
    · rintro ⟨w, hread, hhead, hchain⟩
      obtain ⟨k, rest, hw⟩ := List.exists_cons_of_ne_nil (List.append_ne_nil_of_right_ne_nil w
        (List.cons_ne_nil j []))
      rw [hw] at hhead hchain
      obtain ⟨i, hi, hread', hk⟩ := mem_next.mp (hhead k rfl)
      refine ⟨i :: w, .cons hread' hread, fun k hk => ?_, ?_⟩
      · cases hk
        exact hi
      · rw [List.cons_append, hw]
        exact List.isChain_cons_cons.mpr ⟨hk, hchain⟩
    · rintro ⟨w, hread, hhead, hchain⟩
      obtain ⟨i, v, hi, hread', rfl⟩ := List.forall₂_cons_right_iff.mp hread
      obtain ⟨hnext, hchain'⟩ := List.isChain_cons.mp hchain
      exact ⟨v, hread', fun k hk => mem_next.mpr ⟨i, hhead i rfl, hi, hnext k hk⟩, hchain'⟩

/-- A position that may come last is reached exactly by the texts read before it. -/
theorem mem_after_firsts {P : RegularExpression ι} (hlinear : P.Linear) {x : List α} {j : ι}
    (hj : j ∈ P.lasts) :
    j ∈ P.after reads P.firsts x ↔ ∃ w, ReadAt reads w x ∧ w ++ [j] ∈ P.matches' := by
  rw [mem_after]
  refine exists_congr fun w => and_congr_right fun _ => ?_
  have hne : w ++ [j] ≠ [] := List.append_ne_nil_of_right_ne_nil w (List.cons_ne_nil j [])
  rw [mem_matches'_iff hlinear hne]
  constructor
  · rintro ⟨hhead, hchain⟩
    refine ⟨hne, hhead, fun k hk => ?_, hchain⟩
    rw [List.getLast?_append_of_ne_nil w (List.cons_ne_nil j [])] at hk
    cases hk
    exact hj
  · intro h
    exact ⟨h.head, h.chain⟩

/-- There are positions after a text exactly when it is read at the beginning of a word with more
positions behind it. -/
theorem after_firsts_nonempty {P : RegularExpression ι} (hlinear : P.Linear) (hzero : P.ZeroFree)
    {x : List α} :
    (P.after reads P.firsts x).Nonempty ↔
      ∃ w v, ReadAt reads w x ∧ v ≠ [] ∧ w ++ v ∈ P.matches' := by
  constructor
  · rintro ⟨j, hj⟩
    obtain ⟨w, hread, hhead, hchain⟩ := mem_after.mp hj
    have hpos : j ∈ P.positions := by
      cases w with
      | nil => exact mem_positions_of_mem_firsts (hhead j rfl)
      | cons i w =>
        obtain ⟨k, hk⟩ := Option.ne_none_iff_exists'.mp fun h0 =>
          List.cons_ne_nil i w (List.getLast?_eq_none_iff.mp h0)
        exact (mem_positions_of_mem_follows
          ((List.isChain_append.mp hchain).2.2 k hk j rfl)).2
    obtain ⟨v, hv⟩ := exists_path_from hzero hpos
    obtain ⟨l, v, rfl⟩ := List.exists_cons_of_ne_nil hv.nonempty
    have hl : l = j := Finset.mem_singleton.mp (hv.head l rfl)
    subst hl
    have hsplit : w ++ l :: v = (w ++ [l]) ++ v := by
      rw [List.append_assoc, List.singleton_append]
    refine ⟨w, l :: v, hread, hv.nonempty, mem_of_path hlinear ⟨?_, fun i hi => ?_,
      fun i hi => ?_, ?_⟩⟩
    · exact List.append_ne_nil_of_right_ne_nil w hv.nonempty
    · rw [hsplit, List.head?_append_of_ne_nil _
        (List.append_ne_nil_of_right_ne_nil w (List.cons_ne_nil l []))] at hi
      exact hhead i hi
    · rw [List.getLast?_append_of_ne_nil w hv.nonempty] at hi
      exact hv.last i hi
    · exact List.isChain_append.mpr ⟨(List.isChain_append.mp hchain).1, hv.chain, fun i hi k hk =>
        (List.isChain_append.mp hchain).2.2 i hi k hk⟩
  · rintro ⟨w, v, hread, hv, hword⟩
    obtain ⟨j, v, rfl⟩ := List.exists_cons_of_ne_nil hv
    have hsplit : w ++ j :: v = (w ++ [j]) ++ v := by
      rw [List.append_assoc, List.singleton_append]
    have hpath := path_of_mem hword (List.append_ne_nil_of_right_ne_nil w hv)
    refine ⟨j, mem_after.mpr ⟨w, hread, fun i hi => hpath.head i ?_, ?_⟩⟩
    · rwa [hsplit, List.head?_append_of_ne_nil _
        (List.append_ne_nil_of_right_ne_nil w (List.cons_ne_nil j []))]
    · have hchain := hpath.chain
      rw [hsplit] at hchain
      exact (List.isChain_append.mp hchain).1

/-- Where there are no positions, no letter leads to one. -/
theorem after_empty (P : RegularExpression ι) (x : List α) : P.after reads ∅ x = ∅ := by
  induction x with
  | nil => rfl
  | cons a x ih => rwa [after, List.foldl_cons, ← after, next, Finset.biUnion_empty]

end RegularExpression
