import Mathlib.Data.Finset.Powerset
import P4LS.Library.LongestMatch
import P4LS.Slex.Construction
import P4LS.Slex.Letters

/-!
# The automaton that the tables hold

The construction returns on every list of expressions that parse.  Its tables hold the automaton
of the sets of positions, so a state that a text leads to accepts for the first of the
expressions that has the text.
-/

namespace P4LS.Slex

open Node Numbering LongestMatch

/-- The texts that an expression is matched with. -/
def matched (caseInsensitive : Bool) (tree : Node) : Language UInt8 :=
  if caseInsensitive then {x | ∃ y, List.Forall₂ SameLetter x y ∧ y ∈ tree.lang} else tree.lang

section

variable (caseInsensitive : Bool) (tree : Node) (trees : List Node)

/-- What the construction computes from the tree of the expressions. -/
def positionsOf : Positions := treePositions caseInsensitive (numberedTree tree trees)

/-- What the positions read. -/
def reads : ℕ → UInt8 → Bool := readsAt (positionsOf caseInsensitive tree trees).stateMatch

/-- The set of positions that a text leads to. -/
def setAfter (x : Text) : NodeSet :=
  (numberedTree tree trees).expr.after (reads caseInsensitive tree trees)
    (numberedTree tree trees).expr.firsts x

/-- The numbers of the ends, in the order of the expressions. -/
def ends : List ℕ := (numberedFrom 0 (tree :: trees)).map Prod.snd

variable {caseInsensitive tree trees}

/-! ## The flags -/

theorem computeStateMatch_numberedTree :
    (numberedTree tree trees).computeStateMatch [] = (alternatives tree trees).rows :=
  computeStateMatch_assign (alternatives tree trees) []

theorem length_stateMatch :
    (positionsOf caseInsensitive tree trees).stateMatch.length =
      (alternatives tree trees).rows.length := by
  cases caseInsensitive with
  | false => exact congrArg List.length computeStateMatch_numberedTree
  | true =>
    rw [← computeStateMatch_numberedTree]
    exact length_makeCaseInsensitive _

theorem length_row {p : ℕ} (hp : p < (alternatives tree trees).rows.length) :
    (((numberedTree tree trees).computeStateMatch []).getD p []).length = 256 := by
  rw [computeStateMatch_numberedTree, List.getD_eq_getElem _ _ hp]
  exact length_of_mem_rows (List.getElem_mem hp)

theorem readable_iff {set : NodeSet} :
    Readable (positionsOf caseInsensitive tree trees) set ↔
      ∀ p ∈ set, p < (alternatives tree trees).rows.length := by
  refine forall₂_congr fun p _ => ?_
  rw [length_stateMatch]
  refine and_iff_left_of_imp fun hp => ?_
  cases caseInsensitive with
  | false => exact length_row hp
  | true =>
    have hlt : p < ((numberedTree tree trees).computeStateMatch []).length := by
      rwa [computeStateMatch_numberedTree]
    change ((makeCaseInsensitive _).getD p []).length = 256
    rw [getD_makeCaseInsensitive hlt, length_bothCases, length_row hp]

/-- The positions of the tree are numbers of its leaves. -/
theorem position_lt {p : ℕ} (hp : p ∈ (numberedTree tree trees).expr.positions) :
    p < (alternatives tree trees).rows.length := by
  have h := ((ascends_positions (alternatives tree trees) 0).bounds p hp).2
  rwa [Nat.zero_add] at h

theorem holdsAt_numberedTree :
    HoldsAt ((numberedTree tree trees).computeStateMatch []) 0
      ((tree :: trees).flatMap fun t => (withEof t).rows) := by
  rw [computeStateMatch_numberedTree, rows_alternatives]
  exact fun j _ i => by rw [Nat.zero_add]

/-- Each expression is read in the texts it is matched with. -/
theorem texts_reads {k : ℕ} {t : Node} {part : Node × ℕ} (ht : (tree :: trees)[k]? = some t)
    (hpart : (numberedFrom 0 (tree :: trees))[k]? = some part) :
    part.1.expr.texts (reads caseInsensitive tree trees) = matched caseInsensitive t := by
  have hplain := texts_numberedFrom holdsAt_numberedTree ht hpart
  cases caseInsensitive with
  | false => exact hplain
  | true =>
    ext x
    have hrelated : ∀ p ∈ part.1.expr.positions, ∀ a, reads true tree trees p a = true ↔
        ∃ b, SameLetter a b ∧
          readsAt ((numberedTree tree trees).computeStateMatch []) p b = true := by
      intro p hp a
      have hlt : p < (alternatives tree trees).rows.length :=
        position_lt (numberedTree_eq tree trees ▸
          mem_positions_joined (List.mem_of_getElem? hpart) hp)
      refine readsAt_makeCaseInsensitive ?_ (length_row hlt) a
      rwa [computeStateMatch_numberedTree]
    rw [RegularExpression.mem_texts_of_related hrelated, hplain]
    rfl

theorem zeroFree_expr (t : Node) : t.expr.ZeroFree := by
  induction t with
  | charNode c k => exact trivial
  | epsilonNode k => exact trivial
  | orNode l r ihl ihr => exact ⟨ihl, ihr⟩
  | catNode l r ihl ihr => exact ⟨ihl, ihr⟩
  | starNode l ih => exact ih
  | eofNode k => exact trivial
  | cclNode flags k => exact trivial

/-- The tree begins somewhere: all its words have an end in them. -/
theorem firsts_nonempty : (numberedTree tree trees).expr.firsts.Nonempty := by
  refine RegularExpression.firsts_nonempty (zeroFree_expr _) fun hnil => ?_
  rw [← RegularExpression.nil_mem_matches'_iff, numberedTree_eq, mem_matches'_joined] at hnil
  obtain ⟨p, _, u, _, heq⟩ := hnil
  exact List.append_ne_nil_of_right_ne_nil u (List.cons_ne_nil p.2 []) heq.symm

/-! ## The steps -/

theorem followpos_eq (p : ℕ) :
    (positionsOf caseInsensitive tree trees).followpos p =
      (numberedTree tree trees).expr.follows p := by
  ext j
  rw [positionsOf, treePositions, mem_computeFollowpos]
  exact or_iff_right (Finset.notMem_empty j)

theorem stepOf_toNat (set : NodeSet) (c : UInt8) :
    stepOf (positionsOf caseInsensitive tree trees) set c.toNat =
      if
        0 < ((numberedTree tree trees).expr.next (reads caseInsensitive tree trees) set c).card then
        some ((numberedTree tree trees).expr.next (reads caseInsensitive tree trees) set c)
      else none := by
  rw [stepOf, RegularExpression.next]
  simp only [followpos_eq]
  rfl

theorem stepOf_eq_some {set next : NodeSet} {j : ℕ}
    (h : stepOf (positionsOf caseInsensitive tree trees) set j = some next) :
    ∀ p ∈ next, p ∈ (numberedTree tree trees).expr.positions := by
  intro p hp
  rw [stepOf] at h
  simp only [followpos_eq] at h
  split at h
  · cases h
    obtain ⟨q, _, hq⟩ := Finset.mem_biUnion.mp hp
    split at hq
    · exact (RegularExpression.mem_positions_of_mem_follows hq).2
    · exact absurd hq (Finset.notMem_empty p)
  · cases h

variable (caseInsensitive tree trees) in
/-- The steps follow the sets of positions as long as there are positions. -/
theorem foldlM_stepOf (set : NodeSet) (hset : set.Nonempty) (x : Text) :
    x.foldlM (fun set (c : UInt8) =>
        stepOf (positionsOf caseInsensitive tree trees) set c.toNat) set =
      if 0 < ((numberedTree tree trees).expr.after (reads caseInsensitive tree trees) set x).card
      then some ((numberedTree tree trees).expr.after (reads caseInsensitive tree trees) set x)
      else none := by
  induction x generalizing set with
  | nil =>
    exact (if_pos (Finset.card_pos.mpr hset)).symm
  | cons c x ih =>
    rw [List.foldlM_cons, stepOf_toNat, RegularExpression.after, List.foldl_cons,
      ← RegularExpression.after]
    generalize (numberedTree tree trees).expr.next (reads caseInsensitive tree trees) set c = next
    rcases Finset.eq_empty_or_nonempty next with rfl | hnext
    · rw [RegularExpression.after_empty, Finset.card_empty, if_neg (Nat.lt_irrefl 0)]
      rfl
    · rw [if_pos (Finset.card_pos.mpr hnext)]
      exact ih next hnext

/-! ## The ends -/

theorem sort_eofNodeIds (h : ∀ t ∈ tree :: trees, endFree t = true) :
    (positionsOf caseInsensitive tree trees).eofNodeIds.sort (· ≤ ·) = ends tree trees := by
  have hascends := ascends_ends 0 (tree :: trees)
  have heof : (positionsOf caseInsensitive tree trees).eofNodeIds = (ends tree trees).toFinset :=
    getEofIds_numberedTree h
  rw [heof]
  refine (List.toFinset_sort (· ≤ ·) hascends.nodup).mpr ?_
  exact hascends.ascending.imp fun hlt => Nat.le_of_lt hlt

theorem acceptanceOf_eq (h : ∀ t ∈ tree :: trees, endFree t = true) (set : NodeSet) :
    acceptanceOf (positionsOf caseInsensitive tree trees) set =
      (ends tree trees).findIdx? (· ∈ set) := by
  rw [acceptanceOf, findAcceptanceState, eofNodeIdMap, sort_eofNodeIds h,
    List.findIdx?_eq_bind_find?_idxOf?]
  cases hfind : (ends tree trees).find? (· ∈ set) with
  | none => rfl
  | some e =>
    have hmem : e ∈ ends tree trees := List.mem_of_find?_eq_some hfind
    rw [Option.map_some, lookup_zipIdx, if_pos hmem, Option.bind_some, Option.getD_some]
    exact (List.findIdx?_eq_some_of_exists (p := (· == e)) ⟨e, hmem, beq_self_eq_true e⟩).symm

theorem length_ends : (ends tree trees).length = (tree :: trees).length := by
  rw [ends, List.length_map, length_numberedFrom]

/-- The end of an expression is reached by the texts that the expression is matched with. -/
theorem end_mem_setAfter {k : ℕ} {t : Node} (ht : (tree :: trees)[k]? = some t) {e : ℕ}
    (he : (ends tree trees)[k]? = some e) (x : Text) :
    e ∈ setAfter caseInsensitive tree trees x ↔ x ∈ matched caseInsensitive t := by
  rw [ends, List.getElem?_map] at he
  obtain ⟨part, hpart, rfl⟩ := Option.map_eq_some_iff.mp he
  rw [setAfter, end_mem_after hpart, texts_reads ht hpart]

/-- A set accepts for the first of the expressions whose text leads to it. -/
theorem acceptanceOf_setAfter (h : ∀ t ∈ tree :: trees, endFree t = true) (x : Text) (k : ℕ) :
    acceptanceOf (positionsOf caseInsensitive tree trees)
        (setAfter caseInsensitive tree trees x) = some k ↔
      (∃ t, (tree :: trees)[k]? = some t ∧ x ∈ matched caseInsensitive t) ∧
        ∀ i < k, ∀ t, (tree :: trees)[i]? = some t → x ∉ matched caseInsensitive t := by
  have hend : ∀ (i : ℕ) (hi : i < (ends tree trees).length) (t : Node),
      (tree :: trees)[i]? = some t →
      (decide ((ends tree trees)[i] ∈ setAfter caseInsensitive tree trees x) = true ↔
        x ∈ matched caseInsensitive t) := fun i hi t ht => by
    rw [decide_eq_true_eq, end_mem_setAfter ht (List.getElem?_eq_getElem hi)]
  rw [acceptanceOf_eq h, List.findIdx?_eq_some_iff_getElem]
  constructor
  · rintro ⟨hk, hmem, hfirst⟩
    have hk' : k < (tree :: trees).length := length_ends ▸ hk
    refine ⟨⟨_, List.getElem?_eq_getElem hk', (hend k hk _ (List.getElem?_eq_getElem hk')).mp hmem⟩,
      fun i hi t ht hx => hfirst i hi ?_⟩
    exact (hend i (Nat.lt_trans hi hk) t ht).mpr hx
  · rintro ⟨⟨t, ht, hx⟩, hfirst⟩
    have hk : k < (ends tree trees).length := by
      rw [length_ends]
      exact (List.getElem?_eq_some_iff.mp ht).1
    refine ⟨hk, (hend k hk t ht).mpr hx, fun i hi hmem => ?_⟩
    have hi' : i < (tree :: trees).length := by
      rw [← length_ends]
      exact Nat.lt_trans hi hk
    exact hfirst i hi _ (List.getElem?_eq_getElem hi')
      ((hend i (Nat.lt_trans hi hk) _ (List.getElem?_eq_getElem hi')).mp hmem)

end

/-! ## The tables -/

/-- Where a character leads from a state. -/
def DfaTable.next (dfa : DfaTable) (s : ℕ) (c : UInt8) : Option ℕ :=
  (dfa.transitionTable[s]?.bind fun row => row[c.toNat]?).join

/-- The expression that a state accepts for. -/
def DfaTable.accept (dfa : DfaTable) (s : ℕ) : Option ℕ := dfa.acceptanceIndex[s]?.join

/-- Every row has an entry for each character, and the entries are states of the table. -/
structure DfaTable.WellFormed (dfa : DfaTable) : Prop where
  nonempty : 0 < dfa.transitionTable.length
  length_acceptanceIndex : dfa.acceptanceIndex.length = dfa.transitionTable.length
  length_row : ∀ row ∈ dfa.transitionTable, row.length = 256
  entry_lt : ∀ row ∈ dfa.transitionTable, ∀ s, some s ∈ row → s < dfa.transitionTable.length

/-- The expression of this index is the first that is matched with the text. -/
def FirstMatched (caseInsensitive : Bool) (trees : List Node) (x : Text) (k : ℕ) : Prop :=
  (∃ t, trees[k]? = some t ∧ x ∈ matched caseInsensitive t) ∧
    ∀ i < k, ∀ t, trees[i]? = some t → x ∉ matched caseInsensitive t

section

variable {grammar : Text → Option Node} {caseInsensitive : Bool} {strs : List Text} {tree : Node}
  {trees : List Node}

/-- The construction returns the numbering of the sets of positions, which are subsets of the
leaves. -/
theorem createDfaForState_numbered (hparse : strs.mapM grammar = some (tree :: trees)) :
    ∃ states rows, createDfaForState grammar caseInsensitive strs ⟨[], []⟩ = .ok
        ⟨rows, states.map (acceptanceOf (positionsOf caseInsensitive tree trees))⟩ ∧
      rows.length = states.length ∧
      Numbered (stepOf (positionsOf caseInsensitive tree trees)) (List.range 256) states rows ∧
      [(numberedTree tree trees).firstpos] <+: states ∧
      states.length ≤ 2 ^ (alternatives tree trees).rows.length := by
  have hparsed : parseRegexes grammar strs = some (alternatives tree trees) :=
    parseRegexes_eq_some.mpr ⟨tree, trees, hparse, rfl⟩
  have hassigned : (alternatives tree trees).assignNodeIds 0 =
      (numberedTree tree trees, (alternatives tree trees).rows.length) :=
    Prod.ext rfl ((assignNodeIds_snd _ 0).trans (Nat.zero_add _))
  have hclosed : ∀ set, Readable (positionsOf caseInsensitive tree trees) set → ∀ j next,
      stepOf (positionsOf caseInsensitive tree trees) set j = some next →
      Readable (positionsOf caseInsensitive tree trees) next := fun set _ j next hstep =>
    readable_iff.mpr fun p hp => position_lt (stepOf_eq_some hstep p hp)
  have hfirst : Readable (positionsOf caseInsensitive tree trees)
      (numberedTree tree trees).firstpos := by
    rw [firstpos_eq]
    exact readable_iff.mpr fun p hp =>
      position_lt (RegularExpression.mem_positions_of_mem_firsts hp)
  -- The sets of positions are among the subsets of the numbers of the leaves.
  have hbound : ∀ set, Readable (positionsOf caseInsensitive tree trees) set ↔
      set ∈ (Finset.range (alternatives tree trees).rows.length).powerset := fun set => by
    rw [readable_iff, Finset.mem_powerset]
    exact forall₂_congr fun p _ => Finset.mem_range.symm
  have hcard : (Finset.range (alternatives tree trees).rows.length).powerset.card =
      2 ^ (alternatives tree trees).rows.length := by
    rw [Finset.card_powerset, Finset.card_range]
  have hstart := numbered_start (stepOf (positionsOf caseInsensitive tree trees)) (List.range 256)
    (numberedTree tree trees).firstpos
  obtain ⟨⟨states, rows⟩, hresult, hstates⟩ := explore_returns hstart
    (fun set hset => (hbound set).mp (List.mem_singleton.mp hset ▸ hfirst))
    (fun set hset j next hstep =>
      (hbound next).mp (hclosed set ((hbound set).mpr hset) j next hstep))
    (Nat.le_of_eq (hcard.trans (Nat.zero_add _).symm))
  obtain ⟨hpre, hlength, hnumbered⟩ := explore_spec hstart hresult
  have hloop := markStates_dstates hclosed (2 ^ (alternatives tree trees).rows.length)
    [(numberedTree tree trees).firstpos] [] fun set hset => List.mem_singleton.mp hset ▸ hfirst
  have hinitial : dstates (positionsOf caseInsensitive tree trees)
      [(numberedTree tree trees).firstpos] 0 (tableOf [] [(numberedTree tree trees).firstpos]) =
      initialStates (positionsOf caseInsensitive tree trees) (numberedTree tree trees).firstpos
        ⟨[], []⟩ := (initialStates_eq _).symm
  have htable : tableOf rows states = rows := by
    rw [tableOf, hlength, Nat.sub_self, List.replicate_zero, List.append_nil]
  rw [List.length_nil, hinitial, hresult, Option.map_some, htable] at hloop
  refine ⟨states, rows, ?_, hlength, hnumbered, hpre, hcard ▸ hstates⟩
  rw [createDfaForState, hparsed]
  simp only [hassigned]
  rw [positionsOf] at hloop
  simp only [hloop]
  rfl

/-- The tables of the numbered sets. -/
def tables (caseInsensitive : Bool) (tree : Node) (trees : List Node) (states : List NodeSet)
    (rows : List (List (Option ℕ))) : DfaTable :=
  ⟨rows, states.map (acceptanceOf (positionsOf caseInsensitive tree trees))⟩

variable {states : List NodeSet} {rows : List (List (Option ℕ))}

theorem wellFormed_tables (hlength : rows.length = states.length)
    (hnumbered : Numbered (stepOf (positionsOf caseInsensitive tree trees)) (List.range 256)
      states rows) (hne : states ≠ []) :
    (tables caseInsensitive tree trees states rows).WellFormed where
  nonempty := hlength ▸ List.length_pos_iff.mpr hne
  length_acceptanceIndex := by rw [tables, List.length_map, hlength]
  length_row row hrow := by
    obtain ⟨set, _, rfl⟩ := hnumbered.exists_of_mem_rows hlength hrow
    rw [rowOf, List.length_map, List.length_range]
  entry_lt row hrow s hs := by
    obtain ⟨set, hset, rfl⟩ := hnumbered.exists_of_mem_rows hlength hrow
    obtain ⟨j, hj, hentry⟩ := List.mem_map.mp hs
    obtain ⟨next, hnext, rfl⟩ := Option.map_eq_some_iff.mp hentry
    change _ < rows.length
    rw [hlength]
    exact List.idxOf_lt_length_of_mem (hnumbered.leads_of_mem hlength hset j hj next hnext)

theorem next_tables (hlength : rows.length = states.length)
    (hnumbered : Numbered (stepOf (positionsOf caseInsensitive tree trees)) (List.range 256)
      states rows) {set : NodeSet} (hset : set ∈ states) (c : UInt8) :
    (tables caseInsensitive tree trees states rows).next (states.idxOf set) c =
      (stepOf (positionsOf caseInsensitive tree trees) set c.toNat).map states.idxOf := by
  have hrange : (List.range 256)[c.toNat]? = some c.toNat :=
    List.getElem?_range c.toNat_lt
  rw [DfaTable.next, tables, hnumbered.entry hlength hset, Option.bind_some, rowOf,
    List.getElem?_map, hrange]
  rfl

theorem accept_tables {set : NodeSet} (hset : set ∈ states) :
    (tables caseInsensitive tree trees states rows).accept (states.idxOf set) =
      acceptanceOf (positionsOf caseInsensitive tree trees) set := by
  rw [DfaTable.accept, tables, List.getElem?_map, getElem?_idxOf hset]
  rfl

/-- A text leads to the number of the set that it leads to. -/
theorem after_tables (hlength : rows.length = states.length)
    (hnumbered : Numbered (stepOf (positionsOf caseInsensitive tree trees)) (List.range 256)
      states rows) (hpre : [(numberedTree tree trees).firstpos] <+: states) (x : Text) :
    (setAfter caseInsensitive tree trees x).Nonempty ∧
        setAfter caseInsensitive tree trees x ∈ states ∧
        after (tables caseInsensitive tree trees states rows).next 0 x =
          some (states.idxOf (setAfter caseInsensitive tree trees x)) ∨
      setAfter caseInsensitive tree trees x = ∅ ∧
        after (tables caseInsensitive tree trees states rows).next 0 x = none := by
  have hfirst : (numberedTree tree trees).firstpos ∈ states :=
    hpre.subset (List.mem_singleton_self _)
  have hzero : states.idxOf (numberedTree tree trees).firstpos = 0 := by
    rw [idxOf_of_extended hpre (List.mem_singleton_self _), List.idxOf_cons_self]
  obtain ⟨hrun, hmem⟩ := foldlM_idxOf (fun set hset (c : UInt8) =>
    ⟨next_tables hlength hnumbered hset c, fun t ht =>
      hnumbered.leads_of_mem hlength hset c.toNat (List.mem_range.mpr c.toNat_lt) t ht⟩) hfirst x
  rw [hzero] at hrun
  have hsets := foldlM_stepOf caseInsensitive tree trees (numberedTree tree trees).firstpos
    (firstpos_eq _ ▸ firsts_nonempty) x
  rw [firstpos_eq, ← setAfter] at hsets
  rw [firstpos_eq] at hrun hmem
  rcases Finset.eq_empty_or_nonempty (setAfter caseInsensitive tree trees x) with hempty | hset
  · rw [hempty, Finset.card_empty, if_neg (Nat.lt_irrefl 0)] at hsets
    rw [hsets] at hrun
    exact .inr ⟨hempty, hrun⟩
  · rw [if_pos (Finset.card_pos.mpr hset)] at hsets
    rw [hsets] at hrun
    exact .inl ⟨hset, hmem _ hsets, hrun⟩

variable (caseInsensitive) in
/-- The construction returns on the expressions that parse.  Its tables never lead outside
themselves or the expressions, and the state that a text leads to accepts for the first of the
expressions that is matched with the text. -/
theorem createDfaForState_spec (hparse : strs.mapM grammar = some (tree :: trees))
    (hfree : ∀ t ∈ tree :: trees, endFree t = true) :
    ∃ dfa, createDfaForState grammar caseInsensitive strs ⟨[], []⟩ = .ok dfa ∧ dfa.WellFormed ∧
      dfa.transitionTable.length ≤ 2 ^ (alternatives tree trees).rows.length ∧
      (∀ k, some k ∈ dfa.acceptanceIndex → k < (tree :: trees).length) ∧
      (∀ x k, (after dfa.next 0 x).bind dfa.accept = some k ↔
        FirstMatched caseInsensitive (tree :: trees) x k) ∧
      ∀ x, (after dfa.next 0 x).isSome ↔ (setAfter caseInsensitive tree trees x).Nonempty := by
  obtain ⟨states, rows, hresult, hlength, hnumbered, hpre, hstates⟩ :=
    createDfaForState_numbered hparse
  have hne : states ≠ [] := List.ne_nil_of_mem (hpre.subset (List.mem_singleton_self _))
  refine ⟨tables caseInsensitive tree trees states rows, hresult,
    wellFormed_tables hlength hnumbered hne, hlength.trans_le hstates, fun k hk => ?_,
    fun x k => ?_, fun x => ?_⟩
  · obtain ⟨set, _, hset⟩ := List.mem_map.mp hk
    rw [acceptanceOf_eq hfree] at hset
    rw [← length_ends]
    exact (List.findIdx?_eq_some_iff_getElem.mp hset).1
  · rw [FirstMatched, ← acceptanceOf_setAfter hfree]
    rcases after_tables hlength hnumbered hpre x with ⟨_, hmem, hafter⟩ | ⟨hempty, hafter⟩
    · rw [hafter, Option.bind_some, accept_tables hmem]
    · rw [hafter, hempty, acceptanceOf_eq hfree]
      refine iff_of_false (fun h => nomatch h) fun h => ?_
      obtain ⟨hk, hmem, _⟩ := List.findIdx?_eq_some_iff_getElem.mp h
      exact Finset.notMem_empty _ (of_decide_eq_true hmem)
  · rcases after_tables hlength hnumbered hpre x with ⟨hset, _, hafter⟩ | ⟨hempty, hafter⟩
    · rw [hafter]
      exact iff_of_true rfl hset
    · rw [hafter, hempty]
      exact iff_of_false (fun h => nomatch h) Finset.not_nonempty_empty

end

end P4LS.Slex
