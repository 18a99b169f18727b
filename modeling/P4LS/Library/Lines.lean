import Mathlib.Data.List.DropRight
import Mathlib.Data.List.TakeWhile

/-!
# Texts as sequences of lines

A text is a list, and `nl` is the element that ends a line.  Line numbers and
columns start at zero.  `offset` is the offset a line and a column denote, with
the column cut back to the length of the line, and `splice` replaces what lies
between two offsets.
-/

namespace Lines

variable {α : Type}

def splice (t : List α) (s e : Nat) (new : List α) : List α :=
  t.take s ++ new ++ t.drop e

variable [DecidableEq α] (nl : α)

/-- The offset of the first element of a line, if the text has the line. -/
def lineStart : List α → Nat → Option Nat
  | _, 0 => some 0
  | [], _ + 1 => none
  | a :: t, l + 1 => (lineStart t (if a = nl then l else l + 1)).map (· + 1)

/-- The length of the line that starts at an offset, without its end. -/
def lineLength (t : List α) (start : Nat) : Nat :=
  ((t.drop start).takeWhile (· ≠ nl)).length

def offset (t : List α) (line column : Nat) : Option Nat :=
  (lineStart nl t line).map fun start => start + min column (lineLength nl t start)

/-- The column lies strictly inside the line, before its end. -/
def Inside (t : List α) (line column : Nat) : Prop :=
  ∃ start, lineStart nl t line = some start ∧ column < lineLength nl t start

@[simp] theorem lineStart_zero (t : List α) : lineStart nl t 0 = some 0 := by
  cases t <;> rfl

@[simp] theorem lineStart_nil_succ (l : Nat) : lineStart nl ([] : List α) (l + 1) = none := rfl

theorem lineStart_cons_nl (t : List α) (l : Nat) :
    lineStart nl (nl :: t) (l + 1) = (lineStart nl t l).map (· + 1) := by
  simp [lineStart]

theorem lineStart_cons_ne {a : α} (h : a ≠ nl) (t : List α) (l : Nat) :
    lineStart nl (a :: t) (l + 1) = (lineStart nl t (l + 1)).map (· + 1) := by
  simp [lineStart, h]

theorem lineStart_le (t : List α) (l s : Nat) (h : lineStart nl t l = some s) :
    s ≤ t.length := by
  induction t generalizing l s with
  | nil =>
    cases l with
    | zero => simp at h; omega
    | succ l => simp at h
  | cons a t ih =>
    cases l with
    | zero => simp at h; omega
    | succ l =>
      simp only [lineStart, Option.map_eq_some_iff] at h
      obtain ⟨s', hs', rfl⟩ := h
      have := ih _ _ hs'
      simp only [List.length_cons]
      omega

/-- A line ends in the text. -/
theorem add_lineLength_le (t : List α) {s : Nat} (h : s ≤ t.length) :
    s + lineLength nl t s ≤ t.length := by
  have hle : lineLength nl t s ≤ (t.drop s).length := (List.takeWhile_prefix _).length_le
  rw [List.length_drop] at hle
  omega

/-- Strictly inside a line the column is not cut back. -/
theorem offset_of_inside {t : List α} {l c s : Nat} (hs : lineStart nl t l = some s)
    (hc : c < lineLength nl t s) : offset nl t l c = some (s + c) := by
  rw [offset, hs, Option.map_some, Nat.min_eq_left (Nat.le_of_lt hc)]

/-! ## Lines found by searching for their ends -/

theorem lineStart_succ (t : List α) (l : Nat) :
    lineStart nl t (l + 1) =
      (t.findIdx? (· == nl)).bind fun i =>
        (lineStart nl (t.drop (i + 1)) l).map (i + 1 + ·) := by
  induction t with
  | nil => rfl
  | cons a t ih =>
    by_cases h : a = nl
    · subst h
      rw [lineStart_cons_nl, List.findIdx?_cons]
      simp [Nat.add_comm]
    · rw [lineStart_cons_ne nl h, ih, List.findIdx?_cons]
      have hne : (a == nl) = false := by simpa using h
      simp only [hne, Bool.false_eq_true, if_false, Option.bind_map, Option.map_bind]
      congr 1
      funext i
      simp only [Function.comp, List.drop_succ_cons, Option.map_map]
      congr 1
      funext j
      simp only [Function.comp]
      omega

theorem lineLength_eq_findIdx? (t : List α) (s : Nat) :
    lineLength nl t s = ((t.drop s).findIdx? (· == nl)).getD (t.length - s) := by
  unfold lineLength
  rw [← List.length_drop]
  generalize t.drop s = u
  induction u with
  | nil => rfl
  | cons a u ih =>
    by_cases h : a = nl
    · subst h
      simp [List.findIdx?_cons]
    · have hne : (a == nl) = false := by simpa using h
      rw [List.takeWhile_cons_of_pos (by simpa using h), List.length_cons, ih,
        List.findIdx?_cons]
      simp only [hne, Bool.false_eq_true, if_false, List.length_cons]
      cases u.findIdx? (· == nl) <;> rfl

/-! ## The line and the column of an offset -/

/-- What stands between the start of its line and an offset. -/
def lineBefore (t : List α) (i : Nat) : List α := (t.take i).rtakeWhile (· ≠ nl)

/-- Nothing, or a text whose last element ends a line. -/
def EndsLine (u : List α) : Prop := ∀ a ∈ u.getLast?, a = nl

omit [DecidableEq α] in
theorem endsLine_nil : EndsLine nl ([] : List α) := fun _ ha => by cases ha

omit [DecidableEq α] in
theorem endsLine_singleton : EndsLine nl [nl] := fun _ ha => (Option.some.inj ha).symm

omit [DecidableEq α] in
theorem EndsLine.of_cons {a b : α} {u : List α} (h : EndsLine nl (a :: b :: u)) :
    EndsLine nl (b :: u) := by
  rwa [EndsLine, List.getLast?_cons_cons] at h

omit [DecidableEq α] in
theorem EndsLine.cons {a b : α} {u : List α} (h : EndsLine nl (b :: u)) :
    EndsLine nl (a :: b :: u) := by
  rwa [EndsLine, List.getLast?_cons_cons]

/-- Behind whole lines a line starts. -/
theorem lineStart_append {u : List α} (hu : EndsLine nl u) (w : List α) :
    lineStart nl (u ++ w) (u.count nl) = some u.length := by
  induction u with
  | nil => exact lineStart_zero nl w
  | cons a u ih =>
    cases u with
    | nil =>
      obtain rfl : a = nl := hu a rfl
      rw [List.singleton_append, List.count_singleton_self, lineStart_cons_nl, lineStart_zero]
      rfl
    | cons b u =>
      have hlater := ih (hu.of_cons nl)
      by_cases ha : a = nl
      · rw [ha, List.cons_append, List.count_cons_self, lineStart_cons_nl, hlater]
        rfl
      · have hmem : nl ∈ b :: u := by
          have hlast := List.getLast?_eq_some_getLast (List.cons_ne_nil b u)
          rw [← hu.of_cons nl _ hlast]
          exact List.getLast_mem _
        obtain ⟨k, hk⟩ := Nat.exists_eq_succ_of_ne_zero (List.count_pos_iff.mpr hmem).ne'
        rw [hk] at hlater
        rw [List.cons_append, List.count_cons_of_ne ha, hk, lineStart_cons_ne nl ha, hlater]
        rfl

/-- In front of the start of a line there are as many line ends as its number says. -/
theorem count_of_lineStart {t : List α} {l s : Nat} (h : lineStart nl t l = some s) :
    (t.take s).count nl = l ∧ EndsLine nl (t.take s) := by
  induction t generalizing l s with
  | nil =>
    cases l with
    | zero =>
      rw [List.take_nil]
      exact ⟨rfl, endsLine_nil nl⟩
    | succ l => cases h
  | cons a t ih =>
    cases l with
    | zero =>
      obtain rfl : 0 = s := Option.some.inj h
      exact ⟨rfl, endsLine_nil nl⟩
    | succ l =>
      rw [lineStart, Option.map_eq_some_iff] at h
      obtain ⟨s', hs', rfl⟩ := h
      obtain ⟨hcount, hends⟩ := ih hs'
      rw [List.take_succ_cons]
      by_cases ha : a = nl
      · rw [if_pos ha] at hcount
        refine ⟨by rw [ha, List.count_cons_self, hcount], ?_⟩
        cases htake : t.take s' with
        | nil =>
          rw [ha]
          exact endsLine_singleton nl
        | cons b u =>
          rw [htake] at hends
          exact hends.cons nl
      · rw [if_neg ha] at hcount
        refine ⟨by rw [List.count_cons_of_ne ha, hcount], ?_⟩
        cases htake : t.take s' with
        | nil =>
          rw [htake] at hcount
          cases hcount
        | cons b u =>
          rw [htake] at hends
          exact hends.cons nl

theorem rtakeWhile_append {u v : List α} (hu : EndsLine nl u) (hv : nl ∉ v) :
    (u ++ v).rtakeWhile (· ≠ nl) = v := by
  have hall : ∀ a ∈ v.reverse, decide (a ≠ nl) = true := by
    intro a ha
    rw [decide_eq_true_iff]
    exact fun heq => hv (heq ▸ List.mem_reverse.mp ha)
  rw [List.rtakeWhile, List.reverse_append, List.takeWhile_append_of_pos hall]
  cases hrev : u.reverse with
  | nil => rw [List.takeWhile_nil, List.append_nil, List.reverse_reverse]
  | cons a w =>
    have hlast : u.getLast? = some a := by
      rw [List.getLast?_eq_head?_reverse, hrev, List.head?_cons]
    rw [List.takeWhile_cons_of_neg (by simp [hu a hlast]), List.append_nil, List.reverse_reverse]

/-- A text up to an offset is some whole lines, and what stands before the offset on its line. -/
theorem exists_take_eq (t : List α) (i : Nat) :
    ∃ u, t.take i = u ++ lineBefore nl t i ∧ EndsLine nl u ∧ nl ∉ lineBefore nl t i := by
  refine ⟨(t.take i).rdropWhile (· ≠ nl), ?_, ?_, ?_⟩
  · exact List.rdropWhile_append_rtakeWhile.symm
  · intro a ha
    obtain ⟨hne, hlast⟩ := List.mem_getLast?_eq_getLast ha
    have hstop := List.rdropWhile_last_not (· ≠ nl) (t.take i) hne
    rw [← hlast] at hstop
    simpa using hstop
  · intro hmem
    simpa using List.mem_rtakeWhile_imp hmem

theorem length_lineBefore_le (t : List α) (i : Nat) : (lineBefore nl t i).length ≤ i :=
  (List.rtakeWhile_suffix _ _).length_le.trans (List.length_take_le i t)

/-- The line of an offset starts in front of what stands before the offset on it. -/
theorem lineStart_count {t : List α} {i : Nat} (hi : i ≤ t.length) :
    lineStart nl t ((t.take i).count nl) = some (i - (lineBefore nl t i).length) := by
  obtain ⟨u, htake, hu, hno⟩ := exists_take_eq nl t i
  have hlength := congrArg List.length htake
  rw [List.length_take_of_le hi, List.length_append] at hlength
  have hcount : (t.take i).count nl = u.count nl := by
    rw [htake, List.count_append, List.count_eq_zero.mpr hno, Nat.add_zero]
  have htext : t = u ++ (lineBefore nl t i ++ t.drop i) := by
    rw [← List.append_assoc, ← htake, List.take_append_drop]
  have hstart := lineStart_append nl hu (lineBefore nl t i ++ t.drop i)
  rw [← htext] at hstart
  rw [hcount, hstart]
  congr 1
  omega

theorem drop_lineBefore {t : List α} {i : Nat} (hi : i ≤ t.length) :
    t.drop (i - (lineBefore nl t i).length) = lineBefore nl t i ++ t.drop i := by
  have hsuffix := List.suffix_iff_eq_drop.mp (List.rtakeWhile_suffix (· ≠ nl) (t.take i))
  rw [List.length_take_of_le hi] at hsuffix
  have hle : i - (lineBefore nl t i).length ≤ (t.take i).length := by
    rw [List.length_take_of_le hi]
    omega
  calc t.drop (i - (lineBefore nl t i).length)
      = (t.take i ++ t.drop i).drop (i - (lineBefore nl t i).length) := by
        rw [List.take_append_drop]
    _ = (t.take i).drop (i - (lineBefore nl t i).length) ++ t.drop i :=
        List.drop_append_of_le_length hle
    _ = lineBefore nl t i ++ t.drop i := congrArg (· ++ t.drop i) hsuffix.symm

/-- Inside a line no line end stands in front of a column, nor at it. -/
theorem not_mem_take_of_lt {t : List α} {s c : Nat} (hc : c < lineLength nl t s) :
    nl ∉ (t.drop s).take (c + 1) := by
  intro hmem
  have htake : (t.drop s).take (c + 1) <+: (t.drop s).takeWhile (· ≠ nl) :=
    List.prefix_of_prefix_length_le (List.take_prefix _ _) (List.takeWhile_prefix _)
      (Nat.le_trans (List.length_take_le _ _) hc)
  simpa using List.mem_takeWhile_imp (htake.subset hmem)

/-- An offset is that of a column inside a line, if and only if no line end stands there, as many
line ends stand in front of it as the number of the line says, and as many elements behind the
last of them as the column says. -/
theorem exists_lineStart_iff {t : List α} {l c i : Nat} :
    (∃ s, lineStart nl t l = some s ∧ c < lineLength nl t s ∧ i = s + c) ↔
      i < t.length ∧ t[i]? ≠ some nl ∧ l = (t.take i).count nl ∧
        c = (lineBefore nl t i).length := by
  constructor
  · intro h
    obtain ⟨s, hs, hc, rfl⟩ := h
    obtain ⟨hcount, hends⟩ := count_of_lineStart nl hs
    have hno := not_mem_take_of_lt nl hc
    have hlength := add_lineLength_le nl t (lineStart_le nl t l s hs)
    have hlt : s + c < t.length := by omega
    have hbefore : nl ∉ (t.drop s).take c := fun hmem =>
      hno ((List.take_prefix_take_left (Nat.le_succ c)).subset hmem)
    refine ⟨hlt, fun hat => hno ?_, ?_, ?_⟩
    · rw [List.take_add_one, List.getElem?_drop, hat]
      exact List.mem_append_right _ List.mem_cons_self
    · rw [List.take_add, List.count_append, hcount, List.count_eq_zero.mpr hbefore]
      rfl
    · rw [lineBefore, List.take_add, rtakeWhile_append nl hends hbefore, List.length_take,
        List.length_drop, Nat.min_eq_left (by omega)]
  · intro h
    obtain ⟨hlt, hat, rfl, rfl⟩ := h
    have hle := length_lineBefore_le nl t i
    refine ⟨_, lineStart_count nl (Nat.le_of_lt hlt), ?_, by omega⟩
    obtain ⟨_, _, _, hno⟩ := exists_take_eq nl t i
    have hall : ∀ a ∈ lineBefore nl t i, decide (a ≠ nl) = true := fun a ha =>
      decide_eq_true fun heq => hno (heq ▸ ha)
    have hhead : decide (t[i] ≠ nl) = true := decide_eq_true fun heq => hat (by
      rw [List.getElem?_eq_getElem hlt, heq])
    rw [lineLength, drop_lineBefore nl (Nat.le_of_lt hlt), List.drop_eq_getElem_cons hlt,
      List.takeWhile_append_of_pos hall,
      List.takeWhile_cons_of_pos (p := fun a => decide (a ≠ nl)) hhead, List.length_append,
      List.length_cons]
    omega

end Lines
