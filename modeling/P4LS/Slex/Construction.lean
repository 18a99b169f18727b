import P4LS.Slex.Dfa

/-!
# The construction is the worklist

The maps, the marks and the tables of the construction say again what the list of the states
found and the rows of the worklist say, so the loop over the unmarked states does what the
worklist does.
-/

namespace P4LS.Slex

open Numbering

variable (tree : Positions)

/-- The set a state goes to, if there is one. -/
def stepOf (tstates : NodeSet) (j : ℕ) : Option NodeSet :=
  let set := tstates.biUnion fun p => if flag tree.stateMatch p j then tree.followpos p else ∅
  if 0 < set.card then some set else none

/-- The index of the expression that a set accepts for. -/
def acceptanceOf (set : NodeSet) : Option ℕ :=
  (findAcceptanceState tree.eofNodeIds set).map fun eofNodeId =>
    ((eofNodeIdMap tree.eofNodeIds).lookup eofNodeId).getD 0

/-- The states of the construction for the sets found, of which the first `n` are marked. -/
def dstates (states : List NodeSet) (n : ℕ) (table : List (List (Option ℕ))) : Dstates where
  dstates1 := states.zipIdx
  dstates2 := states.zipIdx.map Prod.swap
  marked := List.replicate n true ++ List.replicate (states.length - n) false
  numStates := states.length - 1
  dfa := { transitionTable := table, acceptanceIndex := states.map (acceptanceOf tree) }

/-- The table while a row is made: the characters not read yet lead nowhere. -/
def partialTable (rows : List (List (Option ℕ))) (row : List (Option ℕ))
    (states : List NodeSet) : List (List (Option ℕ)) :=
  rows ++ (row ++ List.replicate (256 - row.length) none) ::
    List.replicate (states.length - (rows.length + 1)) invalidRow

/-- All positions of the set have a whole row of flags. -/
def Readable (set : NodeSet) : Prop :=
  ∀ p ∈ set, p < tree.stateMatch.length ∧ (tree.stateMatch.getD p []).length = 256

variable {tree}

@[simp] theorem dstates_transitionTable (states : List NodeSet) (n : ℕ)
    (table : List (List (Option ℕ))) :
    (dstates tree states n table).dfa.transitionTable = table := rfl

variable (tree) in
theorem acceptanceFor_append (set : NodeSet) (acceptanceIndex : List (Option ℕ)) :
    acceptanceFor tree.eofNodeIds acceptanceIndex.length set (acceptanceIndex ++ [none]) =
      acceptanceIndex ++ [acceptanceOf tree set] := by
  rw [acceptanceFor, acceptanceOf]
  cases findAcceptanceState tree.eofNodeIds set with
  | none => rfl
  | some eofNodeId =>
    refine (List.set_append_right _ _ (Nat.le_refl _)).trans ?_
    rw [Nat.sub_self]
    rfl

theorem initialStates_eq (fpr : NodeSet) :
    initialStates tree fpr ⟨[], []⟩ = dstates tree [fpr] 0 [invalidRow] := by
  have hacceptance := acceptanceFor_append tree fpr []
  rw [initialStates, dstates]
  congr 2

theorem targetState_dstates {states : List NodeSet} {n : ℕ} (hne : states ≠ [])
    (hn : n ≤ states.length) (table : List (List (Option ℕ))) (set : NodeSet) :
    targetState tree set (dstates tree states n table) =
      ((found states set).idxOf set,
        dstates tree (found states set) n
          (table ++ List.replicate ((found states set).length - states.length) invalidRow)) := by
  have hlookup : (dstates tree states n table).dstates1.lookup set =
      if set ∈ states then some (states.idxOf set) else none := lookup_zipIdx states set
  have hpos : 0 < states.length := List.length_pos_iff.mpr hne
  rw [targetState, hlookup, found]
  by_cases hset : set ∈ states
  · rw [if_pos hset, if_pos hset, Nat.sub_self, List.replicate_zero, List.append_nil]
  · have htarget : (dstates tree states n table).numStates + 1 = states.length :=
      Nat.sub_add_cancel hpos
    have hmarked : states.length + 1 - n = (states.length - n) + 1 := by omega
    rw [if_neg hset, if_neg hset, htarget, List.idxOf_append_of_notMem hset,
      List.idxOf_cons_self, Nat.add_zero, List.length_append, List.length_singleton,
      Nat.add_sub_cancel_left, List.replicate_one]
    refine Prod.ext rfl ?_
    rw [dstates, dstates]
    have hacceptance := acceptanceFor_append tree set (states.map (acceptanceOf tree))
    rw [List.length_map] at hacceptance
    simp only [hacceptance, List.zipIdx_append, List.map_append, List.length_append,
      List.length_singleton, hmarked, List.replicate_succ', List.append_assoc,
      Nat.add_sub_cancel, Nat.zero_add]
    rfl

/-! ## One row -/

section

variable {rows : List (List (Option ℕ))} {row : List (Option ℕ)} {states : List NodeSet}

theorem partialTable_found (hlt : rows.length < states.length) (set : NodeSet) :
    partialTable rows row states ++
        List.replicate ((found states set).length - states.length) invalidRow =
      partialTable rows row (found states set) := by
  have hle := (prefix_found states set).length_le
  rw [partialTable, partialTable, List.append_assoc, List.cons_append,
    List.replicate_append_replicate]
  congr 4
  omega

theorem partialTable_getElem? :
    (partialTable rows row states)[rows.length]? =
      some (row ++ List.replicate (256 - row.length) none) := by
  rw [partialTable, List.getElem?_append_right (Nat.le_refl _), Nat.sub_self]
  rfl

theorem set_row {target : Option ℕ} (hrow : row.length < 256) :
    (row ++ List.replicate (256 - row.length) none).set row.length target =
      (row ++ [target]) ++ List.replicate (256 - (row ++ [target]).length) none := by
  have hblank : 256 - row.length = (256 - (row.length + 1)) + 1 := by omega
  rw [List.set_append_right _ _ (Nat.le_refl _), Nat.sub_self, hblank, List.replicate_succ,
    List.set_cons_zero, List.length_append, List.length_singleton, List.append_assoc,
    List.singleton_append]

theorem partialTable_set {target : Option ℕ} (hrow : row.length < 256) :
    (partialTable rows row states).set rows.length
        ((row ++ List.replicate (256 - row.length) none).set row.length target) =
      partialTable rows (row ++ [target]) states := by
  rw [set_row hrow, partialTable, List.set_append_right _ _ (Nat.le_refl _), Nat.sub_self,
    List.set_cons_zero, partialTable]

/-- A character that leads nowhere is left as it is. -/
theorem partialTable_none (hrow : row.length < 256) :
    partialTable rows (row ++ [none]) states = partialTable rows row states := by
  have hblank : 256 - row.length = (256 - (row.length + 1)) + 1 := by omega
  rw [partialTable, partialTable, List.length_append, List.length_singleton, List.append_assoc,
    List.singleton_append, hblank, List.replicate_succ]

theorem followSet_of_readable {set : NodeSet} (h : Readable tree set) {j : ℕ} (hj : j < 256) :
    followSet tree set j =
      some (set.biUnion fun p => if flag tree.stateMatch p j then tree.followpos p else ∅) := by
  refine if_pos fun p hp => ⟨(h p hp).1, ?_⟩
  rw [(h p hp).2]
  exact hj

/-- One character makes one entry of the row. -/
theorem visitChar_dstates {set : NodeSet} {n : ℕ} (hread : Readable tree set)
    (hlt : rows.length < states.length) (hn : n ≤ states.length) (hrow : row.length < 256) :
    visitChar tree rows.length set (dstates tree states n (partialTable rows row states))
        row.length =
      some (dstates tree (visit (stepOf tree) set (states, row) row.length).1 n
        (partialTable rows (visit (stepOf tree) set (states, row) row.length).2
          (visit (stepOf tree) set (states, row) row.length).1)) := by
  have hne : states ≠ [] := List.length_pos_iff.mp (Nat.lt_of_le_of_lt (Nat.zero_le _) hlt)
  rw [visitChar, followSet_of_readable hread hrow, visit, stepOf]
  generalize (set.biUnion fun p =>
    if flag tree.stateMatch p row.length then tree.followpos p else ∅) = next
  by_cases hcard : 0 < next.card
  · have hlength :
        row.length < (row ++ List.replicate (256 - row.length) (none : Option ℕ)).length := by
      rw [List.length_append, List.length_replicate]
      omega
    simp only [if_pos hcard, targetState_dstates hne hn, partialTable_found hlt,
      dstates_transitionTable, partialTable_getElem?, if_pos hlength, partialTable_set hrow]
    rfl
  · simp only [if_neg hcard, partialTable_none hrow]

/-- The characters make the row. -/
theorem foldlM_visitChar {set : NodeSet} {n : ℕ} (hread : Readable tree set) (m : ℕ)
    (hlt : rows.length < states.length) (hn : n ≤ states.length) (hm : row.length + m = 256) :
    (List.range' row.length m).foldlM (visitChar tree rows.length set)
        (dstates tree states n (partialTable rows row states)) =
      some (dstates tree
        ((List.range' row.length m).foldl (visit (stepOf tree) set) (states, row)).1 n
        (partialTable rows
          ((List.range' row.length m).foldl (visit (stepOf tree) set) (states, row)).2
          ((List.range' row.length m).foldl (visit (stepOf tree) set) (states, row)).1)) := by
  induction m generalizing row states with
  | zero => rfl
  | succ m ih =>
    rw [List.range'_succ, List.foldlM_cons, visitChar_dstates hread hlt hn (by omega),
      List.foldl_cons]
    have hlength : (visit (stepOf tree) set (states, row) row.length).2.length = row.length + 1 :=
      length_visit (stepOf tree) set (states, row) row.length
    have hle := (prefix_visit (stepOf tree) set (states, row) row.length).length_le
    rw [← hlength]
    exact ih (Nat.lt_of_lt_of_le hlt hle) (Nat.le_trans hn hle) (by rw [hlength]; omega)

end

/-! ## The loop -/

theorem findIdx?_marked (n m : ℕ) :
    (List.replicate n true ++ List.replicate m false).findIdx? (fun marked => !marked) =
      if 0 < m then some n else none := by
  rw [List.findIdx?_append, List.findIdx?_replicate, List.findIdx?_replicate]
  simp

theorem mark_next {n m : ℕ} (h : n < m) :
    (List.replicate n true ++ List.replicate (m - n) false).set n true =
      List.replicate (n + 1) true ++ List.replicate (m - (n + 1)) false := by
  have hrest : m - n = (m - (n + 1)) + 1 := by omega
  rw [List.set_append_right _ _ (by rw [List.length_replicate]), List.length_replicate,
    Nat.sub_self, hrest, List.replicate_succ, List.set_cons_zero, List.replicate_succ',
    List.append_assoc]
  rfl

/-- The table when some rows are made. -/
def tableOf (rows : List (List (Option ℕ))) (states : List NodeSet) : List (List (Option ℕ)) :=
  rows ++ List.replicate (states.length - rows.length) invalidRow

theorem tableOf_eq_partialTable {rows : List (List (Option ℕ))} {states : List NodeSet}
    (h : rows.length < states.length) : tableOf rows states = partialTable rows [] states := by
  have hrest : states.length - rows.length = (states.length - (rows.length + 1)) + 1 := by omega
  rw [tableOf, partialTable, hrest, List.replicate_succ]
  rfl

theorem partialTable_whole {rows : List (List (Option ℕ))} {row : List (Option ℕ)}
    {states : List NodeSet} (h : row.length = 256) :
    partialTable rows row states = tableOf (rows ++ [row]) states := by
  rw [partialTable, tableOf, h, Nat.sub_self, List.replicate_zero, List.append_nil,
    List.length_append, List.length_singleton, List.append_assoc, List.singleton_append]

/-- The loop over the unmarked states is the worklist. -/
theorem markStates_dstates
    (hclosed : ∀ set, Readable tree set → ∀ j next, stepOf tree set j = some next →
      Readable tree next) (fuel : ℕ) (states : List NodeSet) (rows : List (List (Option ℕ)))
    (hread : ∀ set ∈ states, Readable tree set) :
    markStates tree fuel (dstates tree states rows.length (tableOf rows states)) =
      (explore (stepOf tree) (List.range 256) fuel states rows).map fun result =>
        dstates tree result.1 result.2.length (tableOf result.2 result.1) := by
  have hfind : (dstates tree states rows.length (tableOf rows states)).marked.findIdx?
      (fun marked => !marked) =
        if 0 < states.length - rows.length then some rows.length else none :=
    findIdx?_marked _ _
  induction fuel generalizing states rows with
  | zero =>
    rw [markStates, explore, hfind]
    rcases Nat.lt_or_ge rows.length states.length with hlt | hge
    · rw [if_pos (Nat.sub_pos_of_lt hlt), List.getElem?_eq_getElem hlt]
      rfl
    · rw [if_neg (by omega), List.getElem?_eq_none hge]
      rfl
  | succ fuel ih =>
    rw [markStates, explore, hfind]
    rcases Nat.lt_or_ge rows.length states.length with hlt | hge
    · have hset : states[rows.length]? = some states[rows.length] := List.getElem?_eq_getElem hlt
      have hmem : Readable tree states[rows.length] := hread _ (List.getElem_mem hlt)
      generalize states[rows.length] = set at hset hmem
      have hlength : (dstates tree states rows.length (tableOf rows states)).dstates2.length =
          states.length := by
        rw [dstates, List.length_map, List.length_zipIdx]
      have hlookup : (dstates tree states rows.length (tableOf rows states)).dstates2.lookup
          rows.length = some set := by
        rw [dstates, lookup_zipIdx_swap, hset]
      have hmark : { dstates tree states rows.length (tableOf rows states) with
            marked := (dstates tree states rows.length (tableOf rows states)).marked.set
              rows.length true } =
          dstates tree states (rows.length + 1) (partialTable rows [] states) := by
        rw [← tableOf_eq_partialTable hlt, dstates, dstates, mark_next hlt]
      have hrow : (List.range 256).foldlM (visitChar tree rows.length set)
            (dstates tree states (rows.length + 1) (partialTable rows [] states)) =
          some (dstates tree
            ((List.range 256).foldl (visit (stepOf tree) set) (states, [])).1 (rows.length + 1)
            (partialTable rows ((List.range 256).foldl (visit (stepOf tree) set) (states, [])).2
              ((List.range 256).foldl (visit (stepOf tree) set) (states, [])).1)) := by
        rw [List.range_eq_range']
        exact foldlM_visitChar hmem 256 hlt (Nat.succ_le_of_lt hlt) rfl
      have hbound := foldl_visit_keeps (P := fun states => ∀ set ∈ states, Readable tree set) set
        (fun _ j next hstates hnext => forall_mem_found hstates (hclosed set hmem j next hnext))
        (List.range 256) (states, []) hread
      have hwhole := (foldl_visit_nil (stepOf tree) (List.range 256) states set).2.1
      rw [if_pos (Nat.sub_pos_of_lt hlt), hset]
      simp only [hlength, if_pos hlt, hlookup, Option.getD_some, hmark, hrow]
      generalize (List.range 256).foldl (visit (stepOf tree) set) (states, []) = visited
        at hrow hbound hwhole ⊢
      have h256 : visited.2.length = 256 := by
        rw [hwhole, rowOf, List.length_map, List.length_range]
      rw [partialTable_whole h256]
      have h := ih visited.1 (rows ++ [visited.2]) hbound (findIdx?_marked _ _)
      rw [List.length_append, List.length_singleton] at h
      exact h
    · rw [if_neg (by omega), List.getElem?_eq_none hge]
      rfl

end P4LS.Slex
