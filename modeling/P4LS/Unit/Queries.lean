import Mathlib.Data.List.Pairwise
import P4LS.Protocol.Ranges
import P4LS.Unit.File

/-!
# Hover and highlights

The two queries search the entries of a document for a range that has the position, and look up
its name.  `operator[]` adds empty entries to the tables on the way, which no query can tell from
absent ones.
-/

namespace P4LS

open Bytes

namespace P4File

/-! ## Tables with empty entries -/

/-- What `operator[]` finds for a key. -/
def entriesOf {α : Type} (table : List (Bytes × List α)) (key : Bytes) : List α :=
  (table.lookup key).getD []

theorem subscript_fst {α : Type} (key : Bytes) (table : List (Bytes × List α)) :
    (subscript key table).1 = entriesOf table key := by
  unfold subscript entriesOf
  cases table.lookup key <;> rfl

theorem entriesOf_subscript {α : Type} (key other : Bytes) (table : List (Bytes × List α)) :
    entriesOf (subscript key table).2 other = entriesOf table other := by
  unfold subscript entriesOf
  cases hkey : table.lookup key with
  | some _ => rfl
  | none =>
    rw [List.lookup_cons]
    by_cases h : other = key
    · rw [h, beq_self_eq_true, hkey]
      rfl
    · rw [beq_eq_false_iff_ne.mpr h]

/-- No query tells the two files apart. -/
structure Alike (file file' : P4File) : Prop where
  locations : ∀ uri, entriesOf file'.locations uri = entriesOf file.locations uri
  definitions : file'.definitions = file.definitions
  highlights : ∀ name, entriesOf file'.highlights name = entriesOf file.highlights name

theorem Alike.refl (file : P4File) : Alike file file := ⟨fun _ => rfl, rfl, fun _ => rfl⟩

theorem Alike.trans {file₁ file₂ file₃ : P4File} (h : Alike file₁ file₂) (h' : Alike file₂ file₃) :
    Alike file₁ file₃ where
  locations uri := (h'.locations uri).trans (h.locations uri)
  definitions := h'.definitions.trans h.definitions
  highlights name := (h'.highlights name).trans (h.highlights name)

/-- The name whose range is found for a location. -/
def nameFor (file : P4File) (location : Location) : Option Bytes :=
  ((entriesOf file.locations location.uri).find? fun it => it.1.and location.range).map (·.2)

theorem Alike.nameFor_eq {file file' : P4File} (h : Alike file file') (location : Location) :
    file'.nameFor location = file.nameFor location := by
  rw [nameFor, nameFor, h.locations]

theorem getHover_fst (file : P4File) (location : Location) :
    (file.getHover location).1 =
      (file.nameFor location).bind fun name => file.definitions.lookup name := by
  unfold getHover nameFor
  rw [← subscript_fst]
  simp only
  cases (subscript location.uri file.locations).1.find? fun it => it.1.and location.range <;> rfl

theorem getHighlights_fst (file : P4File) (location : Location) :
    (file.getHighlights location).1 = (file.nameFor location).map (entriesOf file.highlights) := by
  unfold getHighlights nameFor
  rw [← subscript_fst]
  simp only
  cases (subscript location.uri file.locations).1.find? fun it => it.1.and location.range with
  | none => rfl
  | some it => exact congrArg some (subscript_fst it.2 file.highlights)

theorem alike_getHover (file : P4File) (location : Location) :
    Alike file (file.getHover location).2 := by
  have hlocations := fun uri => entriesOf_subscript location.uri uri file.locations
  unfold getHover
  simp only
  cases (subscript location.uri file.locations).1.find? fun it => it.1.and location.range <;>
    exact ⟨hlocations, rfl, fun _ => rfl⟩

theorem alike_getHighlights (file : P4File) (location : Location) :
    Alike file (file.getHighlights location).2 := by
  have hlocations := fun uri => entriesOf_subscript location.uri uri file.locations
  unfold getHighlights
  simp only
  cases (subscript location.uri file.locations).1.find? fun it => it.1.and location.range with
  | none => exact ⟨hlocations, rfl, fun _ => rfl⟩
  | some it => exact ⟨hlocations, rfl, fun name => entriesOf_subscript it.2 name file.highlights⟩

/-! ## Sequences of queries -/

inductive Query where
  | hover (location : Location)
  | highlights (location : Location)

inductive Answer where
  | hover (content : Option Bytes)
  | highlights (content : Option (List TextDocumentHighlight))

def ask (file : P4File) : Query → Answer × P4File
  | .hover location => (file.getHover location).map .hover id
  | .highlights location => (file.getHighlights location).map .highlights id

def answers : P4File → List Query → List Answer
  | _, [] => []
  | file, query :: queries => (file.ask query).1 :: answers (file.ask query).2 queries

theorem alike_ask (file : P4File) (query : Query) : Alike file (file.ask query).2 := by
  cases query with
  | hover location => exact alike_getHover file location
  | highlights location => exact alike_getHighlights file location

theorem Alike.ask_fst {file file' : P4File} (h : Alike file file') (query : Query) :
    (file'.ask query).1 = (file.ask query).1 := by
  cases query with
  | hover location =>
    have hfst : (file'.getHover location).1 = (file.getHover location).1 := by
      rw [getHover_fst, getHover_fst, h.nameFor_eq, h.definitions]
    exact congrArg Answer.hover hfst
  | highlights location =>
    have hfst : (file'.getHighlights location).1 = (file.getHighlights location).1 := by
      rw [getHighlights_fst, getHighlights_fst, h.nameFor_eq, funext h.highlights]
    exact congrArg Answer.highlights hfst

/-- In a sequence of queries each is answered as if it were the only one. -/
theorem answers_eq (file : P4File) (queries : List Query) :
    file.answers queries = queries.map fun query => (file.ask query).1 := by
  have hanswers : ∀ file', Alike file file' →
      file'.answers queries = queries.map fun query => (file.ask query).1 := by
    induction queries with
    | nil => exact fun _ _ => rfl
    | cons query queries ih =>
      intro file' h
      rw [answers, List.map_cons, h.ask_fst, ih _ (h.trans (alike_ask file' query))]
  exact hanswers file (.refl file)

/-! ## The name at a position -/

/-- The ranges of a document that can be told apart: each is on one line, and no two have a
position in common. -/
structure Separate (entries : List (Range × Bytes)) : Prop where
  line : ∀ it ∈ entries, it.1.start.line = it.1.stop.line
  apart : entries.Pairwise fun a b => ∀ p, ¬(a.1.Contains p ∧ b.1.Contains p)

/-- The name of a range that has the position. -/
def NameAt (file : P4File) (uri : Bytes) (p : Position) (name : Bytes) : Prop :=
  ∃ range, (range, name) ∈ entriesOf file.locations uri ∧ range.Contains p

/-- The search finds the name at a position. -/
theorem nameFor_eq_some_iff {file : P4File} {uri : Bytes}
    (h : Separate (entriesOf file.locations uri)) {p : Position} {name : Bytes} :
    file.nameFor ⟨uri, p.point⟩ = some name ↔ file.NameAt uri p name := by
  rw [nameFor, Option.map_eq_some_iff]
  constructor
  · intro hfound
    obtain ⟨⟨range, name⟩, hfind, rfl⟩ := hfound
    have hmem := List.mem_of_find?_eq_some hfind
    have hand := List.find?_some hfind
    exact ⟨range, hmem, (Range.and_point_iff_of_line (h.line _ hmem)).mp hand⟩
  · intro hname
    obtain ⟨range, hmem, hcontains⟩ := hname
    have hand := (Range.and_point_iff_of_line (h.line _ hmem)).mpr hcontains
    cases hfind : (entriesOf file.locations uri).find? fun it => it.1.and p.point with
    | none => exact absurd hand (List.find?_eq_none.mp hfind _ hmem)
    | some it =>
      have hmem' := List.mem_of_find?_eq_some hfind
      have hand' := List.find?_some hfind
      have hcontains' := (Range.and_point_iff_of_line (h.line _ hmem')).mp hand'
      have hsymm : Std.Symm fun a b : Range × Bytes => ∀ p, ¬(a.1.Contains p ∧ b.1.Contains p) :=
        ⟨fun _ _ hab p hp => hab p hp.symm⟩
      refine ⟨it, rfl, ?_⟩
      by_contra hne
      have hother : it ≠ (range, name) := fun heq => hne (congrArg Prod.snd heq)
      exact h.apart.forall hmem' hmem hother p ⟨hcontains', hcontains⟩

/-- At a position in a range both queries answer for its name, at another one neither answers, and
this is not changed by the queries before. -/
theorem hover_highlights_agree {file : P4File} {uri : Bytes}
    (h : Separate (entriesOf file.locations uri)) (p : Position) (queries : List Query) :
    (∀ name, file.NameAt uri p name →
      (file.getHover ⟨uri, p.point⟩).1 = file.definitions.lookup name ∧
        (file.getHighlights ⟨uri, p.point⟩).1 = some ((file.highlights.lookup name).getD [])) ∧
    ((¬∃ name, file.NameAt uri p name) →
      (file.getHover ⟨uri, p.point⟩).1 = none ∧ (file.getHighlights ⟨uri, p.point⟩).1 = none) ∧
    file.answers queries = queries.map fun query => (file.ask query).1 := by
  refine ⟨fun name hname => ?_, fun hnone => ?_, answers_eq file queries⟩
  · have hfound := (nameFor_eq_some_iff h).mpr hname
    rw [getHover_fst, getHighlights_fst, hfound]
    exact ⟨rfl, rfl⟩
  · have hmissing : file.nameFor ⟨uri, p.point⟩ = none :=
      Option.eq_none_iff_forall_ne_some.mpr fun name hname =>
        hnone ⟨name, (nameFor_eq_some_iff h).mp hname⟩
    rw [getHover_fst, getHighlights_fst, hmissing]
    exact ⟨rfl, rfl⟩

end P4File

/-- A file with two names on one line, of which the first has a definition. -/
def fileOfTwo : P4File :=
  { command := [0], argv := [], unitPath := [], sourceCode := str "one two", symbols := [],
    definitions := [(str "one", str "struct one")],
    locations := [(str "f", [(⟨⟨0, 0⟩, ⟨0, 3⟩⟩, str "one"), (⟨⟨0, 4⟩, ⟨0, 7⟩⟩, str "two")])],
    highlights := [], changed := true }

theorem separate_fileOfTwo : P4File.Separate (P4File.entriesOf fileOfTwo.locations (str "f")) where
  line := by decide
  apart := by
    refine List.pairwise_pair.mpr fun p hp => ?_
    simp only [Range.Contains, Position.le, UInt32.lt_iff_toNat_lt, UInt32.le_iff_toNat_le,
      ← UInt32.toNat_inj] at hp
    have hfour : (4 : UInt32).toNat = 4 := rfl
    have hthree : (3 : UInt32).toNat = 3 := rfl
    omega

theorem hover_highlights_agree_two :
    (fileOfTwo.getHover ⟨str "f", (Position.mk 0 2).point⟩).1 = some (str "struct one") ∧
      (fileOfTwo.getHighlights ⟨str "f", (Position.mk 0 2).point⟩).1 = some [] := by
  have hagree := P4File.hover_highlights_agree separate_fileOfTwo ⟨0, 2⟩ []
  exact hagree.1 (str "one") ⟨⟨⟨0, 0⟩, ⟨0, 3⟩⟩, by decide, by decide⟩

end P4LS
