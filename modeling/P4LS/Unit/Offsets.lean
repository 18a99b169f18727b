import P4LS.Protocol.Ranges
import P4LS.Unit.Edits

/-!
# Positions and offsets

`get_position_index` is the inverse of counting: the line of a resolved position is the number of
line ends in front of its offset, and its column the distance from the last of them.  So the
offsets it returns are ordered as the positions are.
-/

namespace P4LS

open Bytes

/-- The position lies before another, by lines first. -/
def Position.lt (p q : Position) : Prop :=
  p.line < q.line ∨ p.line = q.line ∧ p.character < q.character

/-- What stands on a line in front of an offset. -/
def lineBefore (content : Bytes) (i : Nat) : Bytes := Lines.lineBefore (ch '\n') content i

/-- The line and the column of a position are those of an offset, at which no line ends. -/
structure Counts (content : Bytes) (p : Position) (i : Nat) : Prop where
  inside : i < content.length
  character : content[i]? ≠ some (ch '\n')
  line : p.line.toNat = (content.take i).count (ch '\n')
  column : p.character.toNat = (lineBefore content i).length

theorem getPositionIndex_iff_counts {content : Bytes} {p : Position} {i : Nat} :
    getPositionIndex content p = some i ↔ Counts content p i := by
  rw [getPositionIndex_eq_some_iff, Lines.exists_lineStart_iff]
  constructor
  · intro h
    obtain ⟨hinside, hcharacter, hline, hcolumn⟩ := h
    exact ⟨hinside, hcharacter, hline, hcolumn⟩
  · intro h
    exact ⟨h.inside, h.character, h.line, h.column⟩

section Resolved

variable {content : Bytes} {p q : Position} {i j : Nat}

theorem line_le_of_le (hp : Counts content p i) (hq : Counts content q j) (h : i ≤ j) :
    p.line ≤ q.line := by
  rw [UInt32.le_iff_toNat_le, hp.line, hq.line]
  exact (List.take_prefix_take_left h).sublist.count_le _

/-- On one line the columns are as far apart as the offsets. -/
theorem offset_of_line_eq (hp : getPositionIndex content p = some i)
    (hq : getPositionIndex content q = some j) (h : p.line = q.line) :
    i + q.character.toNat = j + p.character.toNat := by
  obtain ⟨start, hstart, _, rfl⟩ := getPositionIndex_eq_some_iff.mp hp
  obtain ⟨start', hstart', _, rfl⟩ := getPositionIndex_eq_some_iff.mp hq
  rw [h, hstart', Option.some.injEq] at hstart
  omega

theorem getPositionIndex_lt_iff (hp : getPositionIndex content p = some i)
    (hq : getPositionIndex content q = some j) : p.lt q ↔ i < j := by
  have hp' := getPositionIndex_iff_counts.mp hp
  have hq' := getPositionIndex_iff_counts.mp hq
  constructor
  · intro h
    rcases h with hline | ⟨hline, hcharacter⟩
    · by_contra hle
      have hback := line_le_of_le hq' hp' (Nat.le_of_not_lt hle)
      exact absurd hline (UInt32.not_lt.mpr hback)
    · have hsum := offset_of_line_eq hp hq hline
      rw [UInt32.lt_iff_toNat_lt] at hcharacter
      omega
  · intro h
    by_cases hline : p.line = q.line
    · have hsum := offset_of_line_eq hp hq hline
      refine .inr ⟨hline, ?_⟩
      rw [UInt32.lt_iff_toNat_lt]
      omega
    · left
      have hle := line_le_of_le hp' hq' (Nat.le_of_lt h)
      exact UInt32.lt_of_le_of_ne hle hline

theorem getPositionIndex_inj (hp : getPositionIndex content p = some i)
    (hq : getPositionIndex content q = some i) : p = q := by
  have hp' := getPositionIndex_iff_counts.mp hp
  have hq' := getPositionIndex_iff_counts.mp hq
  have hline : p.line = q.line := UInt32.toNat_inj.mp (hp'.line.trans hq'.line.symm)
  have hcharacter : p.character = q.character :=
    UInt32.toNat_inj.mp (hp'.column.trans hq'.column.symm)
  cases p
  cases q
  exact congr (congrArg Position.mk hline) hcharacter

end Resolved

/-- A position is resolved to the offset that counts to it, so no offset belongs to two positions
and the offsets are ordered as the positions are.  No sum wraps around in a `size_t`. -/
structure InvertsCounting (content : Bytes) : Prop where
  counts : ∀ p i, getPositionIndex content p = some i ↔ Counts content p i
  injective : ∀ p q i, getPositionIndex content p = some i →
    getPositionIndex content q = some i → p = q
  monotone : ∀ p q i j, getPositionIndex content p = some i →
    getPositionIndex content q = some j → (p.lt q ↔ i < j)
  sums : ∀ (p : Position) (index : Nat), skipLines content p.line.toNat 0 = some index →
    index + p.character.toNat < 2 ^ 64

theorem getPositionIndex_inverts (content : Bytes) (hlength : content.length < 2 ^ 63) :
    InvertsCounting content where
  counts _ _ := getPositionIndex_iff_counts
  injective _ _ _ := getPositionIndex_inj
  monotone _ _ _ _ := getPositionIndex_lt_iff
  sums _ _ hindex := by
    have hlt := skipLines_add_lt hindex
    omega

theorem getPositionIndex_inverts_lines : InvertsCounting (str "a\n\nbc") :=
  getPositionIndex_inverts (str "a\n\nbc") (by decide)

end P4LS
