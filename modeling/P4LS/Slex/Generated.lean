import P4LS.Slex.Match
import P4LS.Slex.RoundTrip

/-!
# The automaton of written expressions

An expression is written, parsed, numbered and made into tables.  The tables find the longest
prefix of a text that one of the expressions stands for, and of those the first, where the texts of
an expression are given by its parts alone.
-/

namespace P4LS.Slex

open Bytes LongestMatch

theorem Regex.Over.mono {isLeaf isLeaf' : Text → Node → Prop} {bound : ℕ} {l : Level} {r : Regex l}
    (hr : r.Over isLeaf bound) (h : ∀ text node, isLeaf text node → isLeaf' text node) :
    r.Over isLeaf' bound := by
  induction r with
  | leaf text node => exact h text node hr
  | group r ih => exact ih hr
  | star r ih => exact ih hr
  | plus r ih => exact ih hr
  | optional r ih => exact ih hr
  | rep1 r count ih => exact ⟨ih hr.1, hr.2⟩
  | rep2 r count ih => exact ⟨ih hr.1, hr.2⟩
  | rep3 r count1 count2 ih => exact ⟨ih hr.1, hr.2⟩
  | single r ih => exact ih hr
  | concat r s ihr ihs => exact ⟨ihr hr.1, ihs hr.2⟩
  | only r ih => exact ih hr
  | or r s ihr ihs => exact ⟨ihr hr.1, ihs hr.2⟩

theorem populated_repeatNode {n : Node} (h : populated n = true) (num : ℕ) :
    populated (repeatNode n num) = true := by
  have hiterate : ∀ k, populated ((fun nodes => Node.catNode nodes n)^[k] n) = true := by
    intro k
    induction k with
    | zero => exact h
    | succ k ih => rw [Function.iterate_succ_apply', populated, ih, h, Bool.and_self]
  rw [repeatNode]
  split
  · exact hiterate _
  · exact h

/-- Operators keep the classes populated. -/
theorem Regex.populated_tree {isLeaf : Text → Node → Prop} {bound : ℕ} {l : Level} {r : Regex l}
    (hr : r.Over isLeaf bound) (h : ∀ text node, isLeaf text node → populated node = true) :
    populated r.tree = true := by
  have hoptional : ∀ {n : Node}, populated n = true → populated (optionalNode n) = true :=
    fun hn => by rw [optionalNode, populated, hn]; rfl
  induction r with
  | leaf text node => exact h text node hr
  | group r ih => exact ih hr
  | star r ih => exact ih hr
  | plus r ih => rw [tree, populated, populated, ih hr, Bool.and_self]
  | optional r ih => exact hoptional (ih hr)
  | rep1 r count ih => exact populated_repeatNode (ih hr.1) _
  | rep2 r count ih =>
    rw [tree, populated, populated, ih hr.1, populated_repeatNode (ih hr.1), Bool.and_self]
  | rep3 r count1 count2 ih =>
    rw [tree, populated, populated_repeatNode (ih hr.1),
      populated_repeatNode (hoptional (ih hr.1)), Bool.and_self]
  | single r ih => exact ih hr
  | concat r s ihr ihs => rw [tree, populated, ihr hr.1, ihs hr.2, Bool.and_self]
  | only r ih => exact ih hr
  | or r s ihr ihs => rw [tree, populated, ihr hr.1, ihs hr.2, Bool.and_self]

/-- An expression whose classes all have a character. -/
structure Expression (spirit : Spirit) where
  regex : Regex .re
  written :
    regex.Over (fun text node => IsWritten spirit text node ∧ populated node = true) (2 ^ 31)

namespace Expression

variable {spirit : Spirit}

/-- The expression as it is written. -/
def text (e : Expression spirit) : Text := e.regex.text

/-- The texts that the expression is matched with. -/
def denote (caseInsensitive : Bool) (e : Expression spirit) : Language UInt8 :=
  if caseInsensitive then {x | ∃ y, List.Forall₂ SameLetter x y ∧ y ∈ e.regex.denote}
  else e.regex.denote

theorem populated_tree (e : Expression spirit) : populated e.regex.tree = true :=
  e.regex.populated_tree e.written fun _ _ => And.right

theorem populated_trees (es : List (Expression spirit)) :
    ∀ t ∈ es.map fun e => e.regex.tree, populated t = true := by
  intro t ht
  obtain ⟨e, _, rfl⟩ := List.mem_map.mp ht
  exact e.populated_tree

theorem grammar_text (h : spirit.Documented) (e : Expression spirit) :
    spirit.grammar e.text = some e.regex.tree :=
  P4LS.Slex.grammar_text h (e.written.mono fun _ _ => And.left)

theorem matched_tree (caseInsensitive : Bool) (e : Expression spirit) :
    matched caseInsensitive e.regex.tree = e.denote caseInsensitive := by
  rw [matched, denote, Regex.lang_tree e.written]

/-- The texts of some expressions have their trees. -/
theorem mapM_grammar (h : spirit.Documented) (es : List (Expression spirit)) :
    (es.map text).mapM spirit.grammar = some (es.map fun e => e.regex.tree) := by
  induction es with
  | nil => rfl
  | cons e es ih =>
    rw [List.map_cons, List.mapM_cons, grammar_text h, ih]
    rfl

end Expression

/-! ## The match -/

section

variable {spirit : Spirit} (caseInsensitive : Bool) (es : List (Expression spirit))

/-- One of the expressions stands for the text. -/
def Denoted (x : Text) : Prop := ∃ e ∈ es, x ∈ e.denote caseInsensitive

/-- The expression of this index is the first that stands for the text. -/
def FirstDenoted (x : Text) (k : ℕ) : Prop :=
  (∃ e, es[k]? = some e ∧ x ∈ e.denote caseInsensitive) ∧
    ∀ i < k, ∀ e, es[i]? = some e → x ∉ e.denote caseInsensitive

/-- The longest nonempty prefix that an expression stands for, with the first such expression. -/
inductive Longest (x : Text) : Option (ℕ × Text) → Prop
  | found {u rest : Text} {k : ℕ} : x = u ++ rest →
      IsLongest (fun u => u ≠ [] ∧ Denoted caseInsensitive es u) x u →
      FirstDenoted caseInsensitive es u k → Longest x (some (k, rest))
  | nothing : (∀ u, u <+: x → u ≠ [] → ¬Denoted caseInsensitive es u) → Longest x none

variable {caseInsensitive es}

theorem matched_iff {x : Text} :
    Matched caseInsensitive (es.map fun e => e.regex.tree) x ↔ Denoted caseInsensitive es x := by
  rw [Matched, Denoted]
  constructor
  · rintro ⟨t, ht, hx⟩
    obtain ⟨e, he, rfl⟩ := List.mem_map.mp ht
    exact ⟨e, he, e.matched_tree caseInsensitive ▸ hx⟩
  · rintro ⟨e, he, hx⟩
    exact ⟨_, List.mem_map_of_mem he, (e.matched_tree caseInsensitive).symm ▸ hx⟩

theorem firstMatched_iff {x : Text} {k : ℕ} :
    FirstMatched caseInsensitive (es.map fun e => e.regex.tree) x k ↔
      FirstDenoted caseInsensitive es x k := by
  have hat : ∀ (i : ℕ) (P : Language UInt8 → Prop),
      (∃ t, (es.map fun e => e.regex.tree)[i]? = some t ∧ P (matched caseInsensitive t)) ↔
        ∃ e : Expression spirit, es[i]? = some e ∧ P (e.denote caseInsensitive) := by
    intro i P
    rw [List.getElem?_map]
    constructor
    · rintro ⟨t, ht, hP⟩
      obtain ⟨e, he, rfl⟩ := Option.map_eq_some_iff.mp ht
      exact ⟨e, he, e.matched_tree caseInsensitive ▸ hP⟩
    · rintro ⟨e, he, hP⟩
      exact ⟨_, Option.map_eq_some_iff.mpr ⟨e, he, rfl⟩,
        (e.matched_tree caseInsensitive).symm ▸ hP⟩
  refine and_congr (hat k (x ∈ ·)) (forall₂_congr fun i _ => ?_)
  have hnone := not_congr (hat i (x ∈ ·))
  simp only [not_exists, not_and] at hnone
  exact hnone

theorem munch_iff {x : Text} {found : Option (ℕ × Text)} :
    Munch caseInsensitive (es.map fun e => e.regex.tree) x found ↔
      Longest caseInsensitive es x found := by
  constructor
  · rintro (⟨hx, hlongest, hfirst⟩ | hnone)
    · exact .found hx (hlongest.congr fun u _ => and_congr_right fun _ => matched_iff)
        (firstMatched_iff.mp hfirst)
    · exact .nothing fun u hu hne hd => hnone u hu hne (matched_iff.mpr hd)
  · rintro (⟨hx, hlongest, hfirst⟩ | hnone)
    · exact .longest hx (hlongest.congr fun u _ => and_congr_right fun _ => matched_iff.symm)
        (firstMatched_iff.mpr hfirst)
    · exact .nothing fun u hu hne hm => hnone u hu hne (matched_iff.mp hm)

theorem viable_iff {x : Text} :
    Viable caseInsensitive (es.map fun e => e.regex.tree) x ↔
      ∃ y, Denoted caseInsensitive es (x ++ y) :=
  exists_congr fun _ => matched_iff

end

variable {spirit : Spirit}

/-- From the texts of some expressions comes a table that is well formed and has no more states than
there are sets of positions.  The state that a text leads to accepts for the first of the
expressions that stands for the text, and there is one if the text begins one that they stand
for. -/
theorem createDfaForState_written (h : spirit.Documented) (caseInsensitive : Bool)
    (e : Expression spirit) (es : List (Expression spirit)) :
    ∃ dfa, createDfaForState spirit.grammar caseInsensitive ((e :: es).map Expression.text)
        ⟨[], []⟩ = .ok dfa ∧ dfa.WellFormed ∧
      dfa.transitionTable.length ≤
        2 ^ (alternatives e.regex.tree (es.map fun e => e.regex.tree)).rows.length ∧
      ∀ x, (∀ k, (after dfa.next 0 x).bind dfa.accept = some k ↔
          FirstDenoted caseInsensitive (e :: es) x k) ∧
        ((after dfa.next 0 x).isSome ↔ ∃ y, Denoted caseInsensitive (e :: es) (x ++ y)) := by
  obtain ⟨dfa, hdfa, hrecognizes, hstates⟩ := createDfaForState_recognizes caseInsensitive
    (Expression.mapM_grammar h (e :: es)) (Expression.populated_trees (e :: es))
  have hrecognizes' : dfa.Recognizes caseInsensitive ((e :: es).map fun e => e.regex.tree) :=
    hrecognizes
  exact ⟨dfa, hdfa, hrecognizes.wellFormed, hstates, fun x =>
    ⟨fun k => (hrecognizes'.accepts x k).trans firstMatched_iff,
      (hrecognizes'.follows x).trans viable_iff⟩⟩

/-- An expression `a|b*`. -/
def aOrBsExpression : Expression plainSpirit where
  regex := aOrBs
  written := ⟨⟨isWritten_letterAlone (by decide), rfl⟩, ⟨isWritten_letterAlone (by decide), rfl⟩⟩

theorem createDfaForState_written_aOrBs :
    ∃ dfa, createDfaForState plainSpirit.grammar true [str "a|b*"] ⟨[], []⟩ = .ok dfa ∧
      dfa.WellFormed ∧ dfa.transitionTable.length ≤ 2 ^ (alternatives aOrBs.tree []).rows.length ∧
      ∀ x, (∀ k, (after dfa.next 0 x).bind dfa.accept = some k ↔
          FirstDenoted true [aOrBsExpression] x k) ∧
        ((after dfa.next 0 x).isSome ↔ ∃ y, Denoted true [aOrBsExpression] (x ++ y)) :=
  createDfaForState_written plainSpirit_documented true aOrBsExpression []

/-- From the texts of some expressions come tables with which a text is matched as the expressions
mean. -/
theorem doMatch_written (h : spirit.Documented) (caseInsensitive : Bool) (e : Expression spirit)
    (es : List (Expression spirit)) :
    ∃ dfa, createDfaForState spirit.grammar caseInsensitive ((e :: es).map Expression.text)
        ⟨[], []⟩ = .ok dfa ∧
      ∀ x token, ∃ found v, doMatch dfa x token = some (found, token ++ v) ∧
        Longest caseInsensitive (e :: es) x found ∧
        IsLongest (fun u => ∃ y, Denoted caseInsensitive (e :: es) (u ++ y)) x v := by
  obtain ⟨dfa, hdfa, hrecognizes, _⟩ := createDfaForState_recognizes caseInsensitive
    (Expression.mapM_grammar h (e :: es)) (Expression.populated_trees (e :: es))
  refine ⟨dfa, hdfa, fun x token => ?_⟩
  obtain ⟨found, v, hmatch, hfound, hv⟩ := doMatch_spec hrecognizes x token
  exact ⟨found, v, hmatch, munch_iff.mp hfound, hv.congr fun u _ => viable_iff⟩

theorem doMatch_written_aOrBs :
    ∃ dfa, createDfaForState plainSpirit.grammar false [str "a|b*"] ⟨[], []⟩ = .ok dfa ∧
      ∀ x token, ∃ found v, doMatch dfa x token = some (found, token ++ v) ∧
        Longest false [aOrBsExpression] x found ∧
        IsLongest (fun u => ∃ y, Denoted false [aOrBsExpression] (u ++ y)) x v :=
  doMatch_written plainSpirit_documented false aOrBsExpression []

/-- Only what the expressions stand for matters: if expressions written otherwise stand for the same
texts one by one, the tables made of them match every text alike. -/
theorem doMatch_denotes (h : spirit.Documented) {caseInsensitive : Bool}
    {e e' : Expression spirit} {es es' : List (Expression spirit)}
    (hsame : (e :: es).map (Expression.denote caseInsensitive) =
      (e' :: es').map (Expression.denote caseInsensitive)) :
    ∃ dfa dfa',
      createDfaForState spirit.grammar caseInsensitive ((e :: es).map Expression.text) ⟨[], []⟩ =
        .ok dfa ∧
      createDfaForState spirit.grammar caseInsensitive ((e' :: es').map Expression.text) ⟨[], []⟩ =
        .ok dfa' ∧
      ∀ x token, doMatch dfa x token = doMatch dfa' x token := by
  have htrees : ∀ es : List (Expression spirit), (es.map fun e => e.regex.tree).map
      (matched caseInsensitive) = es.map (Expression.denote caseInsensitive) := by
    intro es
    rw [List.map_map]
    exact List.map_congr_left fun e _ => e.matched_tree caseInsensitive
  obtain ⟨dfa, hdfa, hrecognizes, _⟩ := createDfaForState_recognizes caseInsensitive
    (Expression.mapM_grammar h (e :: es)) (Expression.populated_trees (e :: es))
  obtain ⟨dfa', hdfa', hrecognizes', _⟩ := createDfaForState_recognizes caseInsensitive
    (Expression.mapM_grammar h (e' :: es')) (Expression.populated_trees (e' :: es'))
  refine ⟨dfa, dfa', hdfa, hdfa', fun x token => ?_⟩
  have hmap := (htrees (e :: es)).trans (hsame.trans (htrees (e' :: es')).symm)
  obtain ⟨found, v, hmatch, hfound, hv⟩ := doMatch_spec hrecognizes x token
  obtain ⟨found', v', hmatch', hfound', hv'⟩ := doMatch_spec
    (hrecognizes'.congr hmap.symm) x token
  rw [hmatch, hmatch', hfound.unique hfound', hv.unique hv']

/-- The expression `aa*`. -/
def repeatedExpression : Expression plainSpirit where
  regex := .only (.concat (.single (letterAlone 'a')) (.star (letterAlone 'a')))
  written := ⟨⟨isWritten_letterAlone (by decide), rfl⟩, ⟨isWritten_letterAlone (by decide), rfl⟩⟩

/-- The expression `a+`. -/
def plusExpression : Expression plainSpirit where
  regex := .only (.single (.plus (letterAlone 'a')))
  written := ⟨isWritten_letterAlone (by decide), rfl⟩

theorem doMatch_denotes_plus :
    ∃ dfa dfa', createDfaForState plainSpirit.grammar false [str "aa*"] ⟨[], []⟩ = .ok dfa ∧
      createDfaForState plainSpirit.grammar false [str "a+"] ⟨[], []⟩ = .ok dfa' ∧
      ∀ x token, doMatch dfa x token = doMatch dfa' x token := by
  have hsame : [repeatedExpression].map (Expression.denote false) =
      [plusExpression].map (Expression.denote false) := rfl
  have hrepeated : repeatedExpression.text = str "aa*" := rfl
  have hplus : plusExpression.text = str "a+" := rfl
  obtain ⟨dfa, dfa', hdfa, hdfa', hmatch⟩ := doMatch_denotes plainSpirit_documented hsame
  rw [List.map_singleton, hrepeated] at hdfa
  rw [List.map_singleton, hplus] at hdfa'
  exact ⟨dfa, dfa', hdfa, hdfa', hmatch⟩

end P4LS.Slex
