import Mathlib.Data.List.GetD
import P4LS.Slex.Node

/-!
# Numbered trees

`assign_node_ids` numbers the leaves of a tree from left to right without a gap, so
`compute_state_match` appends one row of flags for each of them.
-/

namespace P4LS.Slex

/-- The flag for a character at a node. -/
def flag (stateMatch : StateMatch) (nodeNum j : ℕ) : Bool :=
  (stateMatch.getD nodeNum []).getD j false

/-- What the nodes read. -/
def readsAt (stateMatch : StateMatch) (nodeNum : ℕ) (c : UInt8) : Bool :=
  flag stateMatch nodeNum c.toNat

theorem flag_append_left {stateMatch more : StateMatch} {p : ℕ} (h : p < stateMatch.length)
    (j : ℕ) : flag (stateMatch ++ more) p j = flag stateMatch p j := by
  rw [flag, flag, List.getD_append _ _ _ _ h]

theorem flag_append_right (stateMatch more : StateMatch) (p j : ℕ) :
    flag (stateMatch ++ more) (stateMatch.length + p) j = flag more p j := by
  rw [flag, flag, List.getD_append_right _ _ _ _ (Nat.le_add_right _ _), Nat.add_sub_cancel_left]

namespace Node

/-- The rows of flags of the leaves of a tree, from left to right. -/
def rows : Node → List (List Bool)
  | charNode char _ => [(List.replicate 256 false).set char.toNat true]
  | epsilonNode _ => [List.replicate 256 true]
  | orNode left right => left.rows ++ right.rows
  | catNode left right => left.rows ++ right.rows
  | starNode left => left.rows
  | eofNode _ => [List.replicate 256 false]
  | cclNode flags _ => [flags.toList]

theorem length_of_mem_rows {t : Node} {row : List Bool} (h : row ∈ t.rows) :
    row.length = 256 := by
  induction t with
  | charNode c k => rw [List.mem_singleton.mp h, List.length_set, List.length_replicate]
  | epsilonNode k => rw [List.mem_singleton.mp h, List.length_replicate]
  | orNode l r ihl ihr => exact (List.mem_append.mp h).elim ihl ihr
  | catNode l r ihl ihr => exact (List.mem_append.mp h).elim ihl ihr
  | starNode l ih => exact ih h
  | eofNode k => rw [List.mem_singleton.mp h, List.length_replicate]
  | cclNode flags k => rw [List.mem_singleton.mp h, Vector.length_toList]

theorem assignNodeIds_snd (t : Node) (n : ℕ) : (t.assignNodeIds n).2 = n + t.rows.length := by
  induction t generalizing n with
  | charNode c k => rfl
  | epsilonNode k => rfl
  | orNode l r ihl ihr => rw [assignNodeIds, ihr, ihl, rows, List.length_append, Nat.add_assoc]
  | catNode l r ihl ihr => rw [assignNodeIds, ihr, ihl, rows, List.length_append, Nat.add_assoc]
  | starNode l ih => exact ih n
  | eofNode k => rfl
  | cclNode flags k => rfl

/-- The row of the next number is a new one. -/
theorem setRow_length (stateMatch : StateMatch) (f : List Bool → List Bool) :
    setRow stateMatch.length f stateMatch = stateMatch ++ [f []] := by
  have hgrown : resize stateMatch (stateMatch.length + 1) [] = stateMatch ++ [[]] := by
    rw [resize, List.take_of_length_le (Nat.le_succ _), Nat.add_sub_cancel_left]
    rfl
  rw [setRow, if_pos (Nat.lt_succ_self _), hgrown]
  exact List.modifyTailIdx_add (List.modifyHead f) 0 stateMatch [[]]

theorem resize_nil (n : ℕ) (b : Bool) : resize [] n b = List.replicate n b := by
  rw [resize, List.take_nil, List.nil_append, List.length_nil, Nat.sub_zero]

/-- The leaves append their rows. -/
theorem computeStateMatch_assign (t : Node) (stateMatch : StateMatch) :
    (t.assignNodeIds stateMatch.length).1.computeStateMatch stateMatch =
      stateMatch ++ t.rows := by
  induction t generalizing stateMatch with
  | charNode c k => rw [assignNodeIds, computeStateMatch, setRow_length, resize_nil, rows]
  | epsilonNode k => rw [assignNodeIds, computeStateMatch, setRow_length, resize_nil, rows]
  | orNode l r ihl ihr =>
    have hcount : (l.assignNodeIds stateMatch.length).2 = (stateMatch ++ l.rows).length := by
      rw [assignNodeIds_snd, List.length_append]
    rw [assignNodeIds, computeStateMatch, hcount, ihl, ihr, List.append_assoc, rows]
  | catNode l r ihl ihr =>
    have hcount : (l.assignNodeIds stateMatch.length).2 = (stateMatch ++ l.rows).length := by
      rw [assignNodeIds_snd, List.length_append]
    rw [assignNodeIds, computeStateMatch, hcount, ihl, ihr, List.append_assoc, rows]
  | starNode l ih => exact ih stateMatch
  | eofNode k => rw [assignNodeIds, computeStateMatch, setRow_length, resize_nil, rows]
  | cclNode flags k => rw [assignNodeIds, computeStateMatch, setRow_length, rows]

/-! ## The positions of a numbered tree -/

/-- Numbers that ascend from `n` and stay below `m`. -/
structure Ascends (n m : ℕ) (ks : List ℕ) : Prop where
  ascending : ks.Pairwise (· < ·)
  bounds : ∀ k ∈ ks, n ≤ k ∧ k < m

theorem Ascends.nil (n m : ℕ) : Ascends n m [] where
  ascending := .nil
  bounds _ hk := absurd hk List.not_mem_nil

theorem Ascends.single (n : ℕ) : Ascends n (n + 1) [n] where
  ascending := List.pairwise_singleton _ n
  bounds k hk := by
    rw [List.mem_singleton.mp hk]
    exact ⟨Nat.le_refl n, Nat.lt_succ_self n⟩

theorem Ascends.append {n m l : ℕ} {ks js : List ℕ} (hks : Ascends n m ks)
    (hjs : Ascends m l js) (hnm : n ≤ m) (hml : m ≤ l) : Ascends n l (ks ++ js) where
  ascending := List.pairwise_append.mpr ⟨hks.ascending, hjs.ascending, fun i hi j hj =>
    Nat.lt_of_lt_of_le (hks.bounds i hi).2 (hjs.bounds j hj).1⟩
  bounds k hk := by
    rcases List.mem_append.mp hk with hk | hk
    · exact ⟨(hks.bounds k hk).1, Nat.lt_of_lt_of_le (hks.bounds k hk).2 hml⟩
    · exact ⟨Nat.le_trans hnm (hjs.bounds k hk).1, (hjs.bounds k hk).2⟩

theorem Ascends.nodup {n m : ℕ} {ks : List ℕ} (h : Ascends n m ks) : ks.Nodup :=
  h.ascending.imp fun hlt => Nat.ne_of_lt hlt

theorem ascends_positions_append {l r : Node} {n : ℕ}
    (hl : Ascends n (n + l.rows.length) (l.assignNodeIds n).1.expr.positions)
    (hr : Ascends (n + l.rows.length) (n + l.rows.length + r.rows.length)
      (r.assignNodeIds (n + l.rows.length)).1.expr.positions) :
    Ascends n (n + (l.rows ++ r.rows).length) ((l.assignNodeIds n).1.expr.positions ++
      (r.assignNodeIds (l.assignNodeIds n).2).1.expr.positions) := by
  rw [assignNodeIds_snd, List.length_append, ← Nat.add_assoc]
  exact hl.append hr (Nat.le_add_right _ _) (Nat.le_add_right _ _)

/-- The positions of a numbered tree ascend among its numbers. -/
theorem ascends_positions (t : Node) (n : ℕ) :
    Ascends n (n + t.rows.length) (t.assignNodeIds n).1.expr.positions := by
  induction t generalizing n with
  | charNode c k => exact .single n
  | epsilonNode k => exact .nil n (n + 1)
  | orNode l r ihl ihr => exact ascends_positions_append (ihl n) (ihr _)
  | catNode l r ihl ihr => exact ascends_positions_append (ihl n) (ihr _)
  | starNode l ih => exact ih n
  | eofNode k => exact .single n
  | cclNode flags k => exact .single n

/-! ## The texts of a numbered tree -/

/-- The flags hold the rows of a tree from a number on. -/
def HoldsAt (stateMatch : StateMatch) (n : ℕ) (rows : List (List Bool)) : Prop :=
  ∀ k < rows.length, ∀ j, flag stateMatch (n + k) j = flag rows k j

theorem holdsAt_append {stateMatch : StateMatch} {n : ℕ} {rows more : List (List Bool)}
    (h : HoldsAt stateMatch n (rows ++ more)) :
    HoldsAt stateMatch n rows ∧ HoldsAt stateMatch (n + rows.length) more := by
  refine ⟨fun k hk j => ?_, fun k hk j => ?_⟩
  · rw [h k (by rw [List.length_append]; omega) j, flag_append_left hk]
  · rw [Nat.add_assoc, h (rows.length + k) (by rw [List.length_append]; omega) j,
      flag_append_right]

theorem readsAt_charNode {stateMatch : StateMatch} {n : ℕ} {char : UInt8} {k : ℕ}
    (h : HoldsAt stateMatch n (charNode char k).rows) (c : UInt8) :
    readsAt stateMatch n c = true ↔ c = char := by
  rw [readsAt, ← Nat.add_zero n, h 0 Nat.zero_lt_one, flag, rows, List.getD_cons_zero,
    List.getD_eq_getElem?_getD, List.getElem?_set, List.length_replicate,
    if_pos char.toNat_lt]
  by_cases hc : char.toNat = c.toNat
  · rw [if_pos hc]
    exact iff_of_true rfl (UInt8.toNat_inj.mp hc).symm
  · rw [if_neg hc, List.getElem?_replicate, if_pos c.toNat_lt]
    exact iff_of_false (fun h => nomatch h) (fun h => hc (congrArg UInt8.toNat h.symm))

/-- Read with its flags, a numbered tree has the texts it stands for. -/
theorem texts_assign {t : Node} {stateMatch : StateMatch} {n : ℕ}
    (h : HoldsAt stateMatch n t.rows) :
    (t.assignNodeIds n).1.expr.texts (readsAt stateMatch) = t.lang := by
  induction t generalizing n with
  | charNode c k =>
    ext x
    rw [assignNodeIds, expr, RegularExpression.mem_texts_char, lang]
    constructor
    · rintro ⟨a, rfl, ha⟩
      rw [(readsAt_charNode h a).mp ha]
      exact Set.mem_singleton _
    · intro hx
      exact ⟨c, Set.mem_singleton_iff.mp hx, (readsAt_charNode h c).mpr rfl⟩
  | epsilonNode k => exact RegularExpression.texts_epsilon
  | orNode l r ihl ihr =>
    obtain ⟨hl, hr⟩ := holdsAt_append h
    rw [assignNodeIds, expr, RegularExpression.texts_add, ihl hl, assignNodeIds_snd, ihr hr, lang]
  | catNode l r ihl ihr =>
    obtain ⟨hl, hr⟩ := holdsAt_append h
    rw [assignNodeIds, expr, RegularExpression.texts_mul, ihl hl, assignNodeIds_snd, ihr hr, lang]
  | starNode l ih => rw [assignNodeIds, expr, RegularExpression.texts_star, ih h, lang]
  | eofNode k =>
    ext x
    rw [assignNodeIds, expr, RegularExpression.mem_texts_char, lang]
    refine iff_of_false ?_ (Language.notMem_zero x)
    rintro ⟨a, _, ha⟩
    rw [readsAt, ← Nat.add_zero n, h 0 Nat.zero_lt_one, flag, rows, List.getD_cons_zero,
      List.getD_eq_getElem?_getD, List.getElem?_replicate, if_pos a.toNat_lt] at ha
    exact absurd ha Bool.false_ne_true
  | cclNode flags k =>
    ext x
    rw [assignNodeIds, expr, RegularExpression.mem_texts_char, lang]
    refine exists_congr fun a => and_congr_right fun _ => ?_
    rw [readsAt, ← Nat.add_zero n, h 0 Nat.zero_lt_one, flag, rows, List.getD_cons_zero,
      List.getD_eq_getElem?_getD]
    cases flags.toList[a.toNat]? with
    | none => exact iff_of_false Bool.false_ne_true (fun h => nomatch h)
    | some b => exact Option.some_inj.symm

end Node

end P4LS.Slex
