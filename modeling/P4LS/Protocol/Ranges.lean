import P4LS.Library.OrderedMap
import P4LS.Protocol.Types

/-!
# Ranges and their orders

Positions are ordered by line and then by character.  `operator&` asks for a position on the first
line of a range, in front of the column where the range ends on its last line.  `operator<` of
ranges and of locations does not look at the end of a range, `operator==` does.
-/

namespace P4LS

open Bytes OrderedMap

/-! ## Positions in a range -/

/-- The order of positions in a text. -/
def Position.le (p q : Position) : Prop :=
  p.line < q.line ∨ p.line = q.line ∧ p.character ≤ q.character

instance (p q : Position) : Decidable (p.le q) := inferInstanceAs (Decidable (_ ∨ _))

/-- The position lies between the ends of the range, which belong to it. -/
def Range.Contains (r : Range) (p : Position) : Prop := r.start.le p ∧ p.le r.stop

instance (r : Range) (p : Position) : Decidable (r.Contains p) :=
  inferInstanceAs (Decidable (_ ∧ _))

/-- The range of one position. -/
def Position.point (p : Position) : Range := ⟨p, p⟩

/-- `operator&` finds the positions of the first line up to the column of the end. -/
theorem Range.and_point_iff {r : Range} {p : Position} :
    r.and p.point = true ↔
      r.Contains p ∧ p.line = r.start.line ∧ p.character ≤ r.stop.character := by
  simp only [Range.and, Position.point, Range.Contains, Position.le, Bool.and_eq_true, beq_iff_eq,
    decide_eq_true_eq, ge_iff_le, UInt32.lt_iff_toNat_lt, UInt32.le_iff_toNat_le,
    ← UInt32.toNat_inj]
  omega

/-- For a range of one line there is no difference. -/
theorem Range.and_point_iff_of_line {r : Range} {p : Position} (h : r.start.line = r.stop.line) :
    r.and p.point = true ↔ r.Contains p := by
  rw [Range.and_point_iff, and_iff_left_iff_imp]
  simp only [Range.Contains, Position.le, UInt32.lt_iff_toNat_lt, UInt32.le_iff_toNat_le,
    ← UInt32.toNat_inj] at h ⊢
  omega

/-- `operator&` is right about a position if and only if the range ends on the line it starts on,
or the position is not in it, or it is on the first line and not behind the column of the end. -/
theorem Range.and_right_iff (r : Range) (p : Position) :
    (r.and p.point = true ↔ r.Contains p) ↔
      r.start.line = r.stop.line ∨ ¬r.Contains p ∨
        p.line = r.start.line ∧ p.character ≤ r.stop.character := by
  constructor
  · intro hright
    by_cases hcontains : r.Contains p
    · exact .inr (.inr (Range.and_point_iff.mp (hright.mpr hcontains)).2)
    · exact .inr (.inl hcontains)
  · rintro (hline | hnot | hfirst)
    · exact Range.and_point_iff_of_line hline
    · rw [Range.and_point_iff]
      exact iff_of_false (fun h => hnot h.1) hnot
    · rw [Range.and_point_iff, and_iff_left hfirst]

/-- The line in the middle of a range of three lines is not found. -/
theorem Range.and_wrong_middle :
    (Range.mk ⟨0, 5⟩ ⟨2, 3⟩).start.le (Range.mk ⟨0, 5⟩ ⟨2, 3⟩).stop ∧
      ¬((Range.mk ⟨0, 5⟩ ⟨2, 3⟩).and (Position.mk 1 0).point = true ↔
        (Range.mk ⟨0, 5⟩ ⟨2, 3⟩).Contains ⟨1, 0⟩) := by
  decide

/-! ## Orders -/

theorem Position.ext_iff {p q : Position} :
    p = q ↔ p.line = q.line ∧ p.character = q.character := by
  cases p
  cases q
  simp

/-- Ranges are compared by their starts. -/
theorem Range.lt_comparesBy : ComparesBy Range.lt (fun r => r.start) := by
  have hline := comparesBy_lt (β := UInt32) |>.comap fun r : Range => r.start.line
  have hcharacter := comparesBy_lt (β := UInt32) |>.comap fun r : Range => r.start.character
  exact (hline.lex hcharacter).congr_part fun a b => by
    rw [Prod.mk.injEq, Position.ext_iff]
    rfl

/-- Locations are compared by their documents and the starts of their ranges. -/
theorem Location.lt_comparesBy :
    ComparesBy Location.lt (fun l => (l.uri, l.range.start)) := by
  have huri := comparesBy_lt (β := Bytes) |>.comap fun l : Location => l.uri
  exact huri.lex (Range.lt_comparesBy.comap fun l : Location => l.range)

theorem Location.eq_iff {a b : Location} : a.eq b = true ↔ a = b := by
  obtain ⟨uri, ⟨line, character⟩, ⟨line', character'⟩⟩ := a
  obtain ⟨uri₂, ⟨line₂, character₂⟩, ⟨line₂', character₂'⟩⟩ := b
  simp [Location.eq, and_assoc]

/-- The two orders are strict.  They tell two values apart, and a map of ranges keeps all that are
added to it, if and only if no two different values start at the same place. -/
theorem orders_distinct_iff (a b : Range) (l m : Location) (entries : List (Range × Bytes)) :
    (StrictOrder Range.lt ∧ StrictOrder Location.lt) ∧
      (ExactlyOne (a.lt b = true) (b.lt a = true) (a = b) ↔ (a.start = b.start → a = b)) ∧
      (ExactlyOne (l.lt m = true) (m.lt l = true) (l.eq m = true) ↔
        (l.uri = m.uri → l.range.start = m.range.start → l = m)) ∧
      ((entries.Pairwise fun a b => a.1 ≠ b.1) →
        ((∀ e ∈ entries, e ∈ emplaceAll Range.lt entries []) ↔
          entries.Pairwise fun a b => a.1.start ≠ b.1.start)) := by
  refine ⟨⟨Range.lt_comparesBy.strictOrder, Location.lt_comparesBy.strictOrder⟩,
    Range.lt_comparesBy.exactlyOne_iff a b, ?_, fun hkeys => ?_⟩
  · rw [Location.eq_iff, Location.lt_comparesBy.exactlyOne_iff, Prod.mk.injEq, and_imp]
  · exact emplaceAll_keeps_iff Range.lt_comparesBy hkeys

/-- A range and a shorter one inside it that starts at the same place. -/
theorem not_orders_distinct_nested :
    Range.mk ⟨0, 0⟩ ⟨0, 9⟩ ≠ ⟨⟨0, 0⟩, ⟨0, 3⟩⟩ ∧
      ¬ExactlyOne ((Range.mk ⟨0, 0⟩ ⟨0, 9⟩).lt ⟨⟨0, 0⟩, ⟨0, 3⟩⟩ = true)
        ((Range.mk ⟨0, 0⟩ ⟨0, 3⟩).lt ⟨⟨0, 0⟩, ⟨0, 9⟩⟩ = true)
        (Range.mk ⟨0, 0⟩ ⟨0, 9⟩ = ⟨⟨0, 0⟩, ⟨0, 3⟩⟩) ∧
      (⟨⟨0, 0⟩, ⟨0, 3⟩⟩, str "a") ∉ emplaceAll Range.lt
        [(Range.mk ⟨0, 0⟩ ⟨0, 9⟩, str "a.b"), (⟨⟨0, 0⟩, ⟨0, 3⟩⟩, str "a")] [] := by
  unfold ExactlyOne
  decide

end P4LS
