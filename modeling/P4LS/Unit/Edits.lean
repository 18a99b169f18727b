import P4LS.Unit.Sync

/-!
# Malformed changes

`applyChangeChecked` is one round of `change_source_code` with the operations that can go out of
range: `substr`, which throws behind the end, and the differences of sizes, which wrap around
below zero.  None of them does, for any text and any event, and an event that is not applied
leaves the text as it is.
-/

namespace P4LS

open Bytes

/-! ## Operations on sizes -/

inductive SizeFault where
  /-- `std::out_of_range`. -/
  | substr
  /-- A difference below zero. -/
  | difference
  deriving DecidableEq

/-- `content.substr(pos, count)`. -/
def substr (content : Bytes) (pos count : Nat) : Except SizeFault Bytes :=
  if pos ≤ content.length then .ok ((content.drop pos).take count) else .error .substr

/-- `content.substr(pos)`. -/
def substrFrom (content : Bytes) (pos : Nat) : Except SizeFault Bytes :=
  if pos ≤ content.length then .ok (content.drop pos) else .error .substr

/-- `a - b` of two sizes. -/
def difference (a b : Nat) : Except SizeFault Nat :=
  if b ≤ a then .ok (a - b) else .error .difference

@[simp] theorem substr_of_le {content : Bytes} {pos : Nat} (h : pos ≤ content.length)
    (count : Nat) : substr content pos count = .ok ((content.drop pos).take count) := if_pos h

@[simp] theorem substrFrom_of_le {content : Bytes} {pos : Nat} (h : pos ≤ content.length) :
    substrFrom content pos = .ok (content.drop pos) := if_pos h

@[simp] theorem difference_of_le {a b : Nat} (h : b ≤ a) : difference a b = .ok (a - b) :=
  if_pos h

/-! ## One round -/

/-- The room that is reserved for the new content is computed, but the content does not depend
on it. -/
def spliceChecked (sourceCode text : Bytes) (start stop : Nat) : Except SizeFault Bytes := do
  let _ ← difference (start + text.length + sourceCode.length) stop
  let content ← substr sourceCode 0 start
  let rest ← substrFrom sourceCode stop
  return content ++ text ++ rest

/-- The length of a range is compared only if the event has one. -/
def lengthMatches (rangeLength : Option UInt32) (start stop : Nat) : Except SizeFault Bool :=
  match rangeLength with
  | none => .ok true
  | some n => do
    let length ← difference stop start
    return n.toNat == length

/-- `applyChange` with checked operations. -/
def applyChangeChecked (sourceCode : Bytes) (it : TextDocumentContentChangeEvent) :
    Except SizeFault Bytes :=
  match it.range with
  | none => .ok it.text
  | some range =>
    match getPositionIndex sourceCode range.start, getPositionIndex sourceCode range.stop with
    | some start, some stop =>
      if start ≤ stop then do
        if ← lengthMatches it.rangeLength start stop then
          spliceChecked sourceCode it.text start stop
        else
          return sourceCode
      else
        .ok sourceCode
    | _, _ => .ok sourceCode

/-- A position that is resolved lies inside the text. -/
theorem getPositionIndex_lt_length {content : Bytes} {p : Position} {i : Nat}
    (h : getPositionIndex content p = some i) : i < content.length := by
  obtain ⟨start, hstart, hcolumn, rfl⟩ := getPositionIndex_eq_some_iff.mp h
  have hle := Lines.lineStart_le (ch '\n') content _ _ hstart
  have hend := Lines.add_lineLength_le (ch '\n') content hle
  omega

/-- The sum of a line's offset and a column stays below the length of the text and `2 ^ 32`. -/
theorem skipLines_add_lt {content : Bytes} {p : Position} {index : Nat}
    (h : skipLines content p.line.toNat 0 = some index) :
    index + p.character.toNat < content.length + 2 ^ 32 := by
  rw [skipLines_eq, List.drop_zero, Option.map_eq_some_iff] at h
  obtain ⟨start, hstart, rfl⟩ := h
  have hle := Lines.lineStart_le (ch '\n') content _ _ hstart
  have hcolumn := p.character.toNat_lt
  omega

theorem spliceChecked_eq {sourceCode : Bytes} (text : Bytes) (start : Nat) {stop : Nat}
    (hstop : stop ≤ sourceCode.length) :
    spliceChecked sourceCode text start stop =
      .ok (sourceCode.take start ++ text ++ sourceCode.drop stop) := by
  have hreserve : stop ≤ start + text.length + sourceCode.length := by omega
  rw [spliceChecked, difference_of_le hreserve, substr_of_le (Nat.zero_le _),
    substrFrom_of_le hstop]
  rfl

theorem lengthMatches_eq (rangeLength : Option UInt32) {start stop : Nat} (hle : start ≤ stop) :
    lengthMatches rangeLength start stop =
      .ok (rangeLength.all (·.toNat = stop - start)) := by
  cases rangeLength with
  | none => rfl
  | some n =>
    rw [lengthMatches, difference_of_le hle]
    exact congrArg Except.ok (beq_eq_decide _ _)

/-- No operation of a round goes out of range. -/
theorem applyChangeChecked_eq (sourceCode : Bytes) (it : TextDocumentContentChangeEvent) :
    applyChangeChecked sourceCode it = .ok (P4File.applyChange sourceCode it) := by
  unfold applyChangeChecked P4File.applyChange
  cases it.range with
  | none => rfl
  | some range =>
    cases hstart : getPositionIndex sourceCode range.start with
    | none => simp only [hstart]
    | some start =>
      cases hstop : getPositionIndex sourceCode range.stop with
      | none => simp only [hstart, hstop]
      | some stop =>
        have hlt := getPositionIndex_lt_length hstop
        simp only [hstart, hstop]
        by_cases hle : start ≤ stop
        · rw [if_pos hle, lengthMatches_eq it.rangeLength hle]
          by_cases hlength : it.rangeLength.all (·.toNat = stop - start)
          · rw [if_pos ⟨hle, hlength⟩, hlength, ← spliceChecked_eq it.text start (Nat.le_of_lt hlt)]
            rfl
          · rw [if_neg fun h => hlength h.2, Bool.eq_false_iff.mpr hlength]
            rfl
        · rw [if_neg hle, if_neg fun h => hle h.1]

/-! ## Batches -/

/-- Why an event with a range is ignored: an end is not resolved, the ends are in the wrong
order, or the length is not that of the range. -/
inductive Malformed (before : Bytes) (range : Range) (rangeLength : Option UInt32) : Prop where
  | start (h : getPositionIndex before range.start = none)
  | stop (h : getPositionIndex before range.stop = none)
  | inverted {start stop : Nat} (hstart : getPositionIndex before range.start = some start)
      (hstop : getPositionIndex before range.stop = some stop) (hlt : stop < start)
  | length {start stop : Nat} {n : UInt32}
      (hstart : getPositionIndex before range.start = some start)
      (hstop : getPositionIndex before range.stop = some stop) (hn : rangeLength = some n)
      (hne : n.toNat ≠ stop - start)

/-- What an event may do to a text.  The sums that are compared with the ends of lines do not wrap
around in a `size_t`. -/
structure Harmless (before : Bytes) (it : TextDocumentContentChangeEvent) (after : Bytes) :
    Prop where
  whole : it.range = none → after = it.text
  ranged : ∀ range, it.range = some range → after = before ∨
    ∃ P R S, before = P ++ R ++ S ∧ getPositionIndex before range.start = some P.length ∧
      getPositionIndex before range.stop = some (P.length + R.length) ∧ after = P ++ it.text ++ S
  ignored : ∀ range, it.range = some range → Malformed before range it.rangeLength →
    after = before
  bounds : ∀ range start stop, it.range = some range →
    getPositionIndex before range.start = some start →
    getPositionIndex before range.stop = some stop → start < before.length ∧ stop < before.length
  sums : ∀ (p : Position) (index : Nat), skipLines before p.line.toNat 0 = some index →
    index + p.character.toNat < before.length + 2 ^ 32

theorem Malformed.applyChange_eq {before : Bytes} {it : TextDocumentContentChangeEvent}
    {range : Range} (hrange : it.range = some range)
    (h : Malformed before range it.rangeLength) : P4File.applyChange before it = before := by
  unfold P4File.applyChange
  simp only [hrange]
  cases h with
  | start h => simp only [h]
  | stop h =>
    simp only [h]
    cases getPositionIndex before range.start <;> rfl
  | inverted hstart hstop hlt =>
    simp only [hstart, hstop]
    rw [if_neg fun h => absurd h.1 (Nat.not_le.mpr hlt)]
  | length hstart hstop hn hne =>
    simp only [hstart, hstop, hn]
    rw [if_neg fun h => hne (by simpa using h.2)]

theorem applyChange_ranged {before : Bytes} {it : TextDocumentContentChangeEvent} {range : Range}
    (hrange : it.range = some range) :
    P4File.applyChange before it = before ∨
      ∃ P R S, before = P ++ R ++ S ∧ getPositionIndex before range.start = some P.length ∧
        getPositionIndex before range.stop = some (P.length + R.length) ∧
        P4File.applyChange before it = P ++ it.text ++ S := by
  cases hstart : getPositionIndex before range.start with
  | none => exact .inl (Malformed.applyChange_eq hrange (.start hstart))
  | some start =>
    cases hstop : getPositionIndex before range.stop with
    | none => exact .inl (Malformed.applyChange_eq hrange (.stop hstop))
    | some stop =>
      have hlt := getPositionIndex_lt_length hstop
      by_cases happly : start ≤ stop ∧ it.rangeLength.all (·.toNat = stop - start)
      · have hle := happly.1
        refine .inr ⟨before.take start, (before.drop start).take (stop - start),
          before.drop stop, ?_, ?_, ?_, ?_⟩
        · conv_lhs => rw [← List.take_append_drop start before,
            ← List.take_append_drop (stop - start) (before.drop start), List.drop_drop]
          rw [List.append_assoc, Nat.add_sub_cancel' hle]
        · rw [List.length_take, Nat.min_eq_left (by omega)]
        · rw [List.length_take, List.length_take, List.length_drop]
          congr 1
          omega
        · unfold P4File.applyChange
          simp only [hrange, hstart, hstop]
          rw [if_pos happly]
      · refine .inl ?_
        unfold P4File.applyChange
        simp only [hrange, hstart, hstop]
        rw [if_neg happly]

theorem harmless_applyChange (before : Bytes) (it : TextDocumentContentChangeEvent) :
    Harmless before it (P4File.applyChange before it) where
  whole hrange := by
    unfold P4File.applyChange
    simp only [hrange]
  ranged _ hrange := applyChange_ranged hrange
  ignored _ hrange hmalformed := hmalformed.applyChange_eq hrange
  bounds _ _ _ _ hstart hstop :=
    ⟨getPositionIndex_lt_length hstart, getPositionIndex_lt_length hstop⟩
  sums _ _ hindex := skipLines_add_lt hindex

/-- In every batch no operation goes out of range, and each event is harmless to the text the
ones before it have left. -/
theorem changeSourceCode_harmless (file : P4File)
    (batch : List TextDocumentContentChangeEvent) :
    batch.foldlM applyChangeChecked file.sourceCode =
        .ok (file.changeSourceCode batch).sourceCode ∧
      ∀ earlier it later, batch = earlier ++ it :: later →
        Harmless (file.changeSourceCode earlier).sourceCode it
          (file.changeSourceCode (earlier ++ [it])).sourceCode := by
  constructor
  · have hchecked : applyChangeChecked = fun text it => pure (P4File.applyChange text it) :=
      funext fun text => funext fun it => applyChangeChecked_eq text it
    rw [hchecked, List.foldlM_pure]
    rfl
  · intro earlier it later _
    rw [P4File.changeSourceCode_sourceCode, P4File.changeSourceCode_sourceCode,
      List.foldl_append, List.foldl_cons, List.foldl_nil]
    exact harmless_applyChange _ it

end P4LS
