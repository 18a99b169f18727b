import Mathlib.Data.List.Flatten
import Mathlib.Data.List.Forall2
import Mathlib.Data.List.TakeWhile
import Mathlib.Tactic.Common

/-!
# Words of a text

A text is cut into words at a separator, all at once or one after another, and texts are packed
one behind the other with an end behind each.  Words that are joined by separators are read back,
and so are packed texts at the offsets where they begin.
-/

namespace Words

variable {α : Type}

/-! ## Words between separators -/

/-- The words of a text; empty ones do not count. -/
def words [DecidableEq α] (sep : α) (s : List α) : List (List α) := (s.splitOn sep).filter (· ≠ [])

section

variable [DecidableEq α] {sep : α} {s w first : List α} {rest : List (List α)}

theorem words_of_not_mem (hne : w ≠ []) (h : sep ∉ w) : words sep w = [w] := by
  rw [words, List.splitOn_eq_singleton h]
  exact List.filter_cons_of_pos (decide_eq_true hne)

theorem words_append_cons (hne : w ≠ []) (h : sep ∉ w) (s : List α) :
    words sep (w ++ sep :: s) = w :: words sep s := by
  rw [words, List.splitOn_append_cons_self_of_not_mem h]
  exact List.filter_cons_of_pos (decide_eq_true hne)

/-- Words are read back from a text that joins them by separators. -/
theorem words_joined (h : ∀ w ∈ first :: rest, w ≠ [] ∧ sep ∉ w) :
    words sep (first ++ rest.flatMap (sep :: ·)) = first :: rest := by
  induction rest generalizing first with
  | nil =>
    have hfirst := h first List.mem_cons_self
    rw [List.flatMap_nil, List.append_nil]
    exact words_of_not_mem hfirst.1 hfirst.2
  | cons w rest ih =>
    have hfirst := h first List.mem_cons_self
    rw [List.flatMap_cons, List.cons_append, words_append_cons hfirst.1 hfirst.2,
      ih fun v hv => h v (List.mem_cons_of_mem first hv)]

/-- The pieces of a text are parts of it between separators. -/
theorem of_mem_splitOn (h : w ∈ s.splitOn sep) : sep ∉ w ∧ ∀ c ∈ w, c ∈ s := by
  induction s generalizing w with
  | nil =>
    rw [List.splitOn_nil, List.mem_singleton] at h
    rw [h]
    exact ⟨List.not_mem_nil, fun c hc => hc⟩
  | cons x s ih =>
    have hrest : ∀ v ∈ s.splitOn sep, sep ∉ v ∧ ∀ c ∈ v, c ∈ x :: s := fun v hv =>
      ⟨(ih hv).1, fun c hc => List.mem_cons_of_mem x ((ih hv).2 c hc)⟩
    rw [List.splitOn_cons_eq_if_modifyHead] at h
    by_cases hx : x = sep
    · rw [if_pos (beq_iff_eq.mpr hx)] at h
      rcases List.mem_cons.mp h with rfl | h
      · exact ⟨List.not_mem_nil, fun c hc => absurd hc List.not_mem_nil⟩
      · exact hrest w h
    · rw [if_neg (mt beq_iff_eq.mp hx)] at h
      obtain ⟨head, tail, hpieces⟩ := List.exists_cons_of_ne_nil (List.splitOn_ne_nil sep s)
      rw [hpieces] at h hrest
      rcases List.mem_cons.mp h with rfl | h
      · have hhead := hrest head List.mem_cons_self
        refine ⟨fun hmem => ?_, fun c hc => ?_⟩
        · rcases List.mem_cons.mp hmem with heq | hmem
          · exact hx heq.symm
          · exact hhead.1 hmem
        · rcases List.mem_cons.mp hc with rfl | hc
          · exact List.mem_cons_self
          · exact hhead.2 c hc
      · exact hrest w (List.mem_cons_of_mem head h)

theorem of_mem_words (h : w ∈ words sep s) : w ≠ [] ∧ sep ∉ w ∧ ∀ c ∈ w, c ∈ s := by
  obtain ⟨hpiece, hne⟩ := List.mem_filter.mp h
  exact ⟨of_decide_eq_true hne, of_mem_splitOn hpiece⟩

end

/-! ## One word after another -/

/-- A text without the separators in front of it. -/
def skip [DecidableEq α] (sep : α) (s : List α) : List α := s.dropWhile (· == sep)

/-- The first word of a text and what is left behind it. -/
def next [DecidableEq α] (sep : α) (s : List α) : Option (List α × List α) :=
  if skip sep s = [] then none
  else some ((skip sep s).takeWhile (· != sep), (skip sep s).dropWhile (· != sep))

section

variable [DecidableEq α] {sep : α} {s w rest : List α}

theorem skip_cons_self (sep : α) (s : List α) : skip sep (sep :: s) = skip sep s :=
  List.dropWhile_cons_of_pos (beq_self_eq_true sep)

theorem words_cons_self (sep : α) (s : List α) : words sep (sep :: s) = words sep s := by
  rw [words, List.splitOn_cons_eq_if_modifyHead, if_pos (beq_self_eq_true sep)]
  exact List.filter_cons_of_neg (by simp)

theorem words_skip (sep : α) (s : List α) : words sep (skip sep s) = words sep s := by
  induction s with
  | nil => rfl
  | cons x s ih =>
    by_cases hx : x = sep
    · rw [hx, skip_cons_self, ih, words_cons_self]
    · rw [skip, List.dropWhile_cons, if_neg (mt beq_iff_eq.mp hx)]

theorem next_eq_none : next sep s = none ↔ skip sep s = [] := by
  unfold next
  split
  · exact iff_of_true rfl ‹_›
  · exact iff_of_false nofun ‹_›

/-- The next word and what is left are the text without the separators in front, cut in front of
the next separator. -/
theorem next_eq_some (h : next sep s = some (w, rest)) :
    w ≠ [] ∧ sep ∉ w ∧ skip sep s = w ++ rest ∧ (rest = [] ∨ ∃ t, rest = sep :: t) := by
  unfold next at h
  split at h
  · cases h
  rename_i hne
  obtain ⟨rfl, rfl⟩ := Prod.mk.inj (Option.some.inj h)
  refine ⟨?_, ?_, List.takeWhile_append_dropWhile.symm, ?_⟩
  · obtain ⟨c, t, hct⟩ := List.exists_cons_of_ne_nil hne
    have hc : (c == sep) = false := by
      have hhead := List.head?_dropWhile_not (· == sep) s
      rw [← skip, hct] at hhead
      exact hhead
    rw [hct, List.takeWhile_cons_of_pos (by rw [bne, hc]; rfl)]
    exact List.cons_ne_nil _ _
  · intro hmem
    exact absurd rfl (bne_iff_ne.mp (List.mem_takeWhile_imp (p := (· != sep)) hmem))
  · cases hrest : (skip sep s).dropWhile (· != sep) with
    | nil => exact .inl rfl
    | cons c t =>
      have hc := List.head?_dropWhile_not (· != sep) (skip sep s)
      rw [hrest] at hc
      exact .inr ⟨t, by rw [bne_eq_false_iff_eq.mp hc]⟩

theorem words_of_next_eq_none (h : next sep s = none) : words sep s = [] := by
  rw [← words_skip, next_eq_none.mp h]
  rfl

theorem words_of_next_eq_some (h : next sep s = some (w, rest)) :
    words sep s = w :: words sep rest := by
  obtain ⟨hne, hmem, hskip, rfl | ⟨t, rfl⟩⟩ := next_eq_some h
  · rw [← words_skip, hskip, List.append_nil, words_of_not_mem hne hmem]
    rfl
  · rw [← words_skip, hskip, words_append_cons hne hmem, words_cons_self]

theorem length_skip_le (sep : α) (s : List α) : (skip sep s).length ≤ s.length :=
  List.IsSuffix.length_le (List.dropWhile_suffix _)

theorem length_of_next (h : next sep s = some (w, rest)) : rest.length < s.length := by
  obtain ⟨hne, _, hskip, _⟩ := next_eq_some h
  have hle := length_skip_le sep s
  have hpos := List.length_pos_iff.mpr hne
  rw [hskip, List.length_append] at hle
  omega

/-- Between the beginnings of two words there are the first of them and a separator. -/
theorem length_skip_of_next (h : next sep s = some (w, rest)) (hrest : skip sep rest ≠ []) :
    w.length + 1 + (skip sep rest).length ≤ (skip sep s).length := by
  obtain ⟨_, _, hskip, rfl | ⟨t, rfl⟩⟩ := next_eq_some h
  · exact absurd rfl hrest
  · have hle := length_skip_le sep t
    rw [hskip, skip_cons_self, List.length_append, List.length_cons]
    omega

end

/-! ## Packed texts -/

/-- The texts one behind the other, each with an end. -/
def pack (stop : α) (texts : List (List α)) : List α := texts.flatMap (· ++ [stop])

/-- The offsets where packed texts begin. -/
def offsets : List (List α) → Nat → List Nat
  | [], _ => []
  | text :: texts, start => start :: offsets texts (start + text.length + 1)

theorem pack_cons (stop : α) (text : List α) (texts : List (List α)) :
    pack stop (text :: texts) = text ++ stop :: pack stop texts := by
  rw [pack, List.flatMap_cons, List.append_assoc]
  rfl

/-- At the offset of a packed text there are the text and its end. -/
theorem pack_at_offsets (stop : α) (texts : List (List α)) (front rest : List α) :
    List.Forall₂ (fun text start =>
        (text ++ [stop]) <+: (front ++ pack stop texts ++ rest).drop start)
      texts (offsets texts front.length) := by
  induction texts generalizing front with
  | nil => exact .nil
  | cons text texts ih =>
    have hfront : (front ++ (text ++ [stop])).length = front.length + text.length + 1 := by
      simp only [List.length_append, List.length_singleton]
      omega
    have hmoved : front ++ pack stop (text :: texts) ++ rest =
        front ++ (text ++ [stop]) ++ pack stop texts ++ rest := by
      simp [pack_cons]
    rw [offsets, ← hfront, hmoved]
    refine .cons ?_ (ih _)
    rw [List.append_assoc, List.append_assoc, List.drop_left]
    exact List.prefix_append _ _

section

variable [DecidableEq α] {stop : α} {texts : List (List α)}

/-- The text that is read from an offset ends at the first end. -/
theorem takeWhile_append_stop {text : List α} (h : stop ∉ text) (rest : List α) :
    (text ++ stop :: rest).takeWhile (· != stop) = text := by
  have hall : ∀ c ∈ text, (c != stop) = true := fun c hc => by
    rw [bne_iff_ne]
    intro heq
    exact h (heq ▸ hc)
  rw [List.takeWhile_append_of_pos hall, List.takeWhile_cons_of_neg (by simp), List.append_nil]

/-- Packed texts are read back at their offsets. -/
theorem read_pack (h : ∀ text ∈ texts, stop ∉ text) (front rest : List α) :
    (offsets texts front.length).map (fun start =>
        ((front ++ pack stop texts ++ rest).drop start).takeWhile (· != stop)) = texts := by
  have hpacked := (List.forall₂_and_left texts _).mpr ⟨h, pack_at_offsets stop texts front rest⟩
  have hread := hpacked.imp fun text start ⟨htext, t, ht⟩ => by
    rw [List.append_assoc] at ht
    have htake := takeWhile_append_stop htext t
    exact (ht ▸ htake).symm
  rw [← List.forall₂_map_right_iff, List.forall₂_eq_eq_eq] at hread
  exact hread.symm

end

end Words
