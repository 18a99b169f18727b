import Mathlib.Data.List.Induction
import P4LS.Library.Lines
import P4LS.Unit.File

/-!
# Incremental synchronisation

The client's view of a change is `referenceEdit`: a position denotes an offset
with its column cut back to the line, and a range is replaced between its two
offsets.  `change_source_code` resolves only positions strictly inside a line
and ignores a change that has another one, so the two agree exactly on the
changes that are `Resolved`.
-/

namespace P4LS

open Bytes

/-- The offset a position denotes in a text. -/
def denotedOffset (text : Bytes) (p : Position) : Option Nat :=
  Lines.offset (ch '\n') text p.line.toNat p.character.toNat

/-- The position names a line of the text and a column before the line's end. -/
def InsideLine (text : Bytes) (p : Position) : Prop :=
  Lines.Inside (ch '\n') text p.line.toNat p.character.toNat

/-- The text after one event, when the event is legal in the text. -/
def referenceEdit (text : Bytes) (it : TextDocumentContentChangeEvent) : Option Bytes :=
  match it.range with
  | none => some it.text
  | some range =>
    (denotedOffset text range.start).bind fun start =>
      (denotedOffset text range.stop).bind fun stop =>
        if start ≤ stop ∧ it.rangeLength.all (·.toNat = stop - start) then
          some (Lines.splice text start stop it.text)
        else
          none

/-- The text after a batch, when every event is legal in the text it meets. -/
def referenceBatch (text : Bytes) (batch : List TextDocumentContentChangeEvent) : Option Bytes :=
  batch.foldlM referenceEdit text

/-- The event replaces the whole text, or both its ends lie strictly inside
their lines, or it puts back what it replaces. -/
def Resolved (text : Bytes) (it : TextDocumentContentChangeEvent) : Prop :=
  ∀ range, it.range = some range →
    (InsideLine text range.start ∧ InsideLine text range.stop) ∨
      referenceEdit text it = some text

/-- Every event of the batch is resolved in the text the client has then. -/
def BatchResolved (text : Bytes) (batch : List TextDocumentContentChangeEvent) : Prop :=
  ∀ earlier it later before, batch = earlier ++ it :: later →
    referenceBatch text earlier = some before → Resolved before it

/-! ## Resolving a position -/

theorem skipLines_eq (content : Bytes) (lines index : Nat) :
    skipLines content lines index =
      (Lines.lineStart (ch '\n') (content.drop index) lines).map (index + ·) := by
  induction lines generalizing index with
  | zero => simp [skipLines]
  | succ lines ih =>
    rw [Lines.lineStart_succ, skipLines, findNewline]
    cases (content.drop index).findIdx? (· == ch '\n') with
    | none => rfl
    | some i =>
      simp only [Option.map_some, Option.bind_some, ih, List.drop_drop, Option.map_map]
      rw [show index + i + 1 = index + (i + 1) by omega]
      congr 1
      funext j
      simp only [Function.comp]
      omega

theorem lineEnd_eq (content : Bytes) (index : Nat) (h : index ≤ content.length) :
    (findNewline content index).getD content.length =
      index + Lines.lineLength (ch '\n') content index := by
  rw [Lines.lineLength_eq_findIdx?, findNewline]
  cases (content.drop index).findIdx? (· == ch '\n') with
  | none =>
    simp only [Option.map_none, Option.getD_none]
    omega
  | some i => rfl

theorem getPositionIndex_eq_some_iff {content : Bytes} {p : Position} {i : Nat} :
    getPositionIndex content p = some i ↔
      ∃ start, Lines.lineStart (ch '\n') content p.line.toNat = some start ∧
        p.character.toNat < Lines.lineLength (ch '\n') content start ∧
        i = start + p.character.toNat := by
  unfold getPositionIndex
  rw [skipLines_eq, List.drop_zero]
  cases hs : Lines.lineStart (ch '\n') content p.line.toNat with
  | none => simp
  | some start =>
    have hle := Lines.lineStart_le (ch '\n') content _ _ hs
    simp only [Option.map_some, Nat.zero_add, lineEnd_eq content start hle,
      Nat.add_lt_add_iff_left, Option.some.injEq, exists_eq_left', Option.ite_none_right_eq_some]
    exact and_congr_right fun _ => eq_comm

theorem getPositionIndex_eq_none_iff {content : Bytes} {p : Position} :
    getPositionIndex content p = none ↔ ¬ InsideLine content p := by
  rw [← not_iff_not, not_not, ← ne_eq, Option.ne_none_iff_exists']
  constructor
  · intro h
    obtain ⟨i, hi⟩ := h
    obtain ⟨start, hs, hc, _⟩ := getPositionIndex_eq_some_iff.mp hi
    exact ⟨start, hs, hc⟩
  · intro h
    obtain ⟨start, hs, hc⟩ := h
    exact ⟨_, getPositionIndex_eq_some_iff.mpr ⟨start, hs, hc, rfl⟩⟩

/-- Inside a line the code resolves a position to the offset it denotes. -/
theorem getPositionIndex_of_insideLine {content : Bytes} {p : Position}
    (h : InsideLine content p) : getPositionIndex content p = denotedOffset content p := by
  obtain ⟨start, hs, hc⟩ := h
  rw [denotedOffset, Lines.offset_of_inside _ hs hc]
  exact getPositionIndex_eq_some_iff.mpr ⟨start, hs, hc, rfl⟩

/-! ## One event -/

theorem applyChange_of_insideLine {text after : Bytes} {it : TextDocumentContentChangeEvent}
    {range : Range} (hr : it.range = some range) (hs : InsideLine text range.start)
    (he : InsideLine text range.stop) (h : referenceEdit text it = some after) :
    P4File.applyChange text it = after := by
  simp only [referenceEdit, hr, Option.bind_eq_some_iff] at h
  obtain ⟨start, hstart, stop, hstop, h⟩ := h
  have hlegal : start ≤ stop ∧ it.rangeLength.all (·.toNat = stop - start) := by
    by_contra hc
    rw [if_neg hc] at h
    cases h
  rw [if_pos hlegal] at h
  simp only [P4File.applyChange, hr, getPositionIndex_of_insideLine hs,
    getPositionIndex_of_insideLine he, hstart, hstop]
  rw [if_pos hlegal]
  exact Option.some.inj h

/-- A change with an end that is not strictly inside its line is ignored. -/
theorem applyChange_of_not_insideLine {text : Bytes} {it : TextDocumentContentChangeEvent}
    {range : Range} (hr : it.range = some range)
    (h : ¬ (InsideLine text range.start ∧ InsideLine text range.stop)) :
    P4File.applyChange text it = text := by
  rcases not_and_or.mp h with hs | he
  · have hn := getPositionIndex_eq_none_iff.mpr hs
    simp only [P4File.applyChange, hr, hn]
  · have hn := getPositionIndex_eq_none_iff.mpr he
    simp only [P4File.applyChange, hr, hn]
    cases getPositionIndex text range.start <;> rfl

theorem applyChange_eq_reference_iff {text after : Bytes} {it : TextDocumentContentChangeEvent}
    (h : referenceEdit text it = some after) :
    P4File.applyChange text it = after ↔ Resolved text it := by
  cases hr : it.range with
  | none =>
    simp only [referenceEdit, hr, Option.some.injEq] at h
    simp only [P4File.applyChange, Resolved, hr, h, true_iff]
    intro range hc
    cases hc
  | some range =>
    by_cases hin : InsideLine text range.start ∧ InsideLine text range.stop
    · refine iff_of_true (applyChange_of_insideLine hr hin.1 hin.2 h) ?_
      intro range' hr'
      rw [hr, Option.some.injEq] at hr'
      subst hr'
      exact .inl hin
    · rw [applyChange_of_not_insideLine hr hin]
      constructor
      · intro heq range' _
        subst heq
        exact .inr h
      · intro hres
        rcases hres range hr with hc | hc
        · exact absurd hc hin
        · rw [h] at hc
          exact (Option.some.inj hc).symm

/-! ## Batches -/

theorem referenceBatch_append (text : Bytes) (a b : List TextDocumentContentChangeEvent) :
    referenceBatch text (a ++ b) = (referenceBatch text a).bind (referenceBatch · b) :=
  List.foldlM_append ..

theorem referenceBatch_concat (text : Bytes) (a : List TextDocumentContentChangeEvent)
    (it : TextDocumentContentChangeEvent) :
    referenceBatch text (a ++ [it]) = (referenceBatch text a).bind (referenceEdit · it) := by
  rw [referenceBatch_append]
  congr 1
  funext t
  simp [referenceBatch]

/-- The beginning of a legal batch is legal. -/
theorem referenceBatch_prefix {text after : Bytes} {a b : List TextDocumentContentChangeEvent}
    (h : referenceBatch text (a ++ b) = some after) :
    ∃ between, referenceBatch text a = some between ∧ referenceBatch between b = some after := by
  rw [referenceBatch_append] at h
  exact Option.bind_eq_some_iff.mp h

theorem foldl_applyChange_of_resolved {text after : Bytes}
    {batch : List TextDocumentContentChangeEvent} (h : referenceBatch text batch = some after)
    (hres : BatchResolved text batch) : batch.foldl P4File.applyChange text = after := by
  induction batch using List.reverseRecOn generalizing after with
  | nil =>
    simpa [referenceBatch] using h
  | append_singleton earlier it ih =>
    rw [referenceBatch_concat, Option.bind_eq_some_iff] at h
    obtain ⟨before, hbefore, hit⟩ := h
    have hres' : BatchResolved text earlier := by
      intro e i l b hsplit hb
      exact hres e i (l ++ [it]) b (by simp [hsplit]) hb
    rw [List.foldl_append, ih hbefore hres', List.foldl_cons, List.foldl_nil]
    exact (applyChange_eq_reference_iff hit).mpr (hres earlier it [] before rfl hbefore)

/-- A legal batch whose events are all resolved leaves the text of the reference,
and the server's copy follows the client's through the whole batch exactly when
every event is resolved in the text it meets. -/
theorem changeSourceCode_agrees_iff (file : P4File)
    (batch : List TextDocumentContentChangeEvent) (after : Bytes)
    (hlegal : referenceBatch file.sourceCode batch = some after) :
    (BatchResolved file.sourceCode batch → (file.changeSourceCode batch).sourceCode = after) ∧
      ((∀ earlier, earlier <+: batch →
        some (file.changeSourceCode earlier).sourceCode = referenceBatch file.sourceCode earlier) ↔
      BatchResolved file.sourceCode batch) := by
  simp only [P4File.changeSourceCode_sourceCode]
  refine ⟨foldl_applyChange_of_resolved hlegal, ?_⟩
  constructor
  · intro hagree earlier it later before hsplit hbefore
    have hlegal' := hlegal
    rw [hsplit, List.append_cons] at hlegal'
    obtain ⟨between, hbetween, _⟩ := referenceBatch_prefix hlegal'
    have hprev := hagree earlier ⟨it :: later, hsplit.symm⟩
    have hnext := hagree (earlier ++ [it]) ⟨later, by simp [hsplit]⟩
    rw [hbefore, Option.some.injEq] at hprev
    rw [hbetween, Option.some.injEq, List.foldl_append, hprev] at hnext
    rw [referenceBatch_concat, hbefore, Option.bind_some] at hbetween
    exact (applyChange_eq_reference_iff hbetween).mp hnext
  · intro hres earlier hinitial
    obtain ⟨later, rfl⟩ := hinitial
    obtain ⟨between, hbetween, _⟩ := referenceBatch_prefix hlegal
    have hres' : BatchResolved file.sourceCode earlier := by
      intro e i l b hsplit hb
      exact hres e i (l ++ later) b (by simp [hsplit]) hb
    rw [hbetween, foldl_applyChange_of_resolved hbetween hres']

/-- The unit of a text, with an empty command and empty tables. -/
def unitOfText (text : Bytes) : P4File :=
  { command := [0], argv := [], unitPath := [], sourceCode := text, symbols := [],
    definitions := [], locations := [], highlights := [], changed := true }

/-- Typing `text` at a column of the first line. -/
def typedAt (column : UInt32) (text : String) : TextDocumentContentChangeEvent :=
  { range := some ⟨⟨0, column⟩, ⟨0, column⟩⟩, rangeLength := none, text := str text }

theorem changeSourceCode_agrees_typing_inside :
    (∀ earlier, earlier <+: [typedAt 1 "x"] →
      some ((unitOfText (str "ab")).changeSourceCode earlier).sourceCode =
        referenceBatch (unitOfText (str "ab")).sourceCode earlier) ↔
    BatchResolved (unitOfText (str "ab")).sourceCode [typedAt 1 "x"] :=
  (changeSourceCode_agrees_iff (unitOfText (str "ab")) [typedAt 1 "x"] (str "axb") (by decide)).2

/-- A character typed at the end of a line is lost. -/
theorem changeSourceCode_loses_typing_at_line_end :
    referenceBatch (str "ab") [typedAt 2 "c"] = some (str "abc") ∧
      ((unitOfText (str "ab")).changeSourceCode [typedAt 2 "c"]).sourceCode ≠ str "abc" := by
  decide

end P4LS
