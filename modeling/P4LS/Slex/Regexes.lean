import P4LS.Slex.NodeIds

/-!
# The tree of a list of regular expressions

`parse` puts an end behind the tree of an expression, and `parse_regexes` makes the alternatives
of the trees from left to right.  The numbers of the ends ascend in the order of the expressions,
and a word before an end is a word of its expression.
-/

namespace P4LS.Slex

open Node

abbrev Text := List UInt8

/-- The tree of an expression with its end behind it. -/
def withEof (tree : Node) : Node := catNode tree (eofNode 0)

/-- `parse`, where `grammar` gives the tree that the grammar leaves for a text it matches. -/
def parse (grammar : Text → Option Node) (str : Text) : Option Node := (grammar str).map withEof

/-- The tree of a list of expressions; `none` is a `bad_regex`. -/
def parseRegexes (grammar : Text → Option Node) : List Text → Option Node
  | [] => none
  | str :: strs =>
    match parse grammar str with
    | none => none
    | some tree => strs.foldlM (fun tree str => (parse grammar str).map (orNode tree)) tree

/-- The alternatives of some trees. -/
def alternatives (tree : Node) (trees : List Node) : Node :=
  trees.foldl (fun tree next => orNode tree (withEof next)) (withEof tree)

theorem foldlM_parse {grammar : Text → Option Node} {strs : List Text} {tree result : Node} :
    strs.foldlM (fun tree str => (parse grammar str).map (orNode tree)) tree = some result ↔
      ∃ ts, strs.mapM grammar = some ts ∧
        result = ts.foldl (fun tree next => orNode tree (withEof next)) tree := by
  induction strs generalizing tree with
  | nil =>
    rw [List.foldlM_nil, List.mapM_nil]
    constructor
    · intro h
      cases h
      exact ⟨[], rfl, rfl⟩
    · rintro ⟨ts, hts, rfl⟩
      cases hts
      rfl
  | cons str strs ih =>
    rw [List.foldlM_cons, List.mapM_cons, parse]
    cases hg : grammar str with
    | none =>
      refine iff_of_false (fun h => nomatch h) ?_
      rintro ⟨ts, hts, _⟩
      cases hts
    | some t =>
      simp only [Option.map_some, Option.bind_eq_bind, Option.bind_some]
      rw [ih]
      constructor
      · rintro ⟨ts, hts, rfl⟩
        exact ⟨t :: ts, by rw [hts]; rfl, rfl⟩
      · rintro ⟨ts, hts, rfl⟩
        obtain ⟨us, hus, heq⟩ := Option.bind_eq_some_iff.mp hts
        cases heq
        exact ⟨us, hus, rfl⟩

theorem mapM_eq_none {grammar : Text → Option Node} {strs : List Text} {str : Text}
    (hmem : str ∈ strs) (hbad : grammar str = none) : strs.mapM grammar = none := by
  induction strs with
  | nil => exact absurd hmem List.not_mem_nil
  | cons first strs ih =>
    rw [List.mapM_cons]
    rcases List.mem_cons.mp hmem with rfl | hmem
    · rw [hbad]
      rfl
    · rw [ih hmem]
      cases grammar first <;> rfl

/-- The expressions parse into the alternatives of their trees. -/
theorem parseRegexes_eq_some {grammar : Text → Option Node} {strs : List Text} {tree : Node} :
    parseRegexes grammar strs = some tree ↔
      ∃ t ts, strs.mapM grammar = some (t :: ts) ∧ tree = alternatives t ts := by
  cases strs with
  | nil =>
    refine iff_of_false (fun h => nomatch h) ?_
    rintro ⟨t, ts, h, _⟩
    cases h
  | cons str strs =>
    rw [parseRegexes, parse, List.mapM_cons]
    cases hg : grammar str with
    | none =>
      refine iff_of_false (fun h => nomatch h) ?_
      rintro ⟨t, ts, h, _⟩
      cases h
    | some t =>
      simp only [Option.map_some, Option.bind_eq_bind, Option.bind_some]
      rw [foldlM_parse]
      constructor
      · rintro ⟨ts, hts, rfl⟩
        exact ⟨t, ts, by rw [hts]; rfl, rfl⟩
      · rintro ⟨t', ts, hts, rfl⟩
        obtain ⟨us, hus, heq⟩ := Option.bind_eq_some_iff.mp hts
        cases heq
        exact ⟨ts, hus, rfl⟩

/-- One expression that the grammar refuses makes the list a `bad_regex`. -/
theorem parseRegexes_bad {grammar : Text → Option Node} {strs : List Text} {str : Text}
    (hmem : str ∈ strs) (hbad : grammar str = none) : parseRegexes grammar strs = none := by
  cases hparse : parseRegexes grammar strs with
  | none => rfl
  | some tree =>
    obtain ⟨t, ts, hmapM, _⟩ := parseRegexes_eq_some.mp hparse
    rw [mapM_eq_none hmem hbad] at hmapM
    cases hmapM

/-! ## The numbered alternatives -/

/-- The trees numbered one after another, each with the number of its end. -/
def numberedFrom : ℕ → List Node → List (Node × ℕ)
  | _, [] => []
  | n, tree :: trees =>
    tree.assignNodeIds n :: numberedFrom ((tree.assignNodeIds n).2 + 1) trees

/-- A numbered tree with its end. -/
def ended (part : Node × ℕ) : Node := catNode part.1 (eofNode part.2)

def joined (part : Node × ℕ) (parts : List (Node × ℕ)) : Node :=
  parts.foldl (fun tree next => orNode tree (ended next)) (ended part)

theorem assign_foldl (trees : List Node) (tree : Node) (n : ℕ) :
    ((trees.foldl (fun tree next => orNode tree (withEof next)) tree).assignNodeIds n).1 =
      (numberedFrom (tree.assignNodeIds n).2 trees).foldl
        (fun tree next => orNode tree (ended next)) (tree.assignNodeIds n).1 := by
  induction trees generalizing tree with
  | nil => rfl
  | cons next trees ih => exact ih (orNode tree (withEof next))

theorem assign_alternatives (tree : Node) (trees : List Node) (n : ℕ) :
    ((alternatives tree trees).assignNodeIds n).1 = joined (tree.assignNodeIds n)
      (numberedFrom ((tree.assignNodeIds n).2 + 1) trees) :=
  assign_foldl trees (withEof tree) n

theorem rows_foldl (trees : List Node) (tree : Node) :
    (trees.foldl (fun tree next => orNode tree (withEof next)) tree).rows =
      tree.rows ++ trees.flatMap fun t => (withEof t).rows := by
  induction trees generalizing tree with
  | nil => rw [List.foldl_nil, List.flatMap_nil, List.append_nil]
  | cons next trees ih => rw [List.foldl_cons, ih, rows, List.flatMap_cons, List.append_assoc]

theorem rows_alternatives (tree : Node) (trees : List Node) :
    (alternatives tree trees).rows = (tree :: trees).flatMap fun t => (withEof t).rows :=
  rows_foldl trees (withEof tree)

theorem mem_matches'_ended {part : Node × ℕ} {w : List ℕ} :
    w ∈ (ended part).expr.matches' ↔ ∃ u ∈ part.1.expr.matches', w = u ++ [part.2] := by
  rw [ended, expr, expr, RegularExpression.matches'_mul, RegularExpression.matches'_char,
    Language.mem_mul]
  refine exists_congr fun u => and_congr_right fun _ => ?_
  constructor
  · rintro ⟨v, hv, rfl⟩
    rw [Set.mem_singleton_iff.mp hv]
  · rintro rfl
    exact ⟨[part.2], Set.mem_singleton _, rfl⟩

theorem lasts_ended (part : Node × ℕ) : (ended part).expr.lasts = {part.2} := rfl

theorem mem_matches'_foldl (parts : List (Node × ℕ)) (tree : Node) (w : List ℕ) :
    w ∈ (parts.foldl (fun tree next => orNode tree (ended next)) tree).expr.matches' ↔
      w ∈ tree.expr.matches' ∨ ∃ p ∈ parts, w ∈ (ended p).expr.matches' := by
  induction parts generalizing tree with
  | nil => simp
  | cons part parts ih =>
    rw [List.foldl_cons, ih, expr, RegularExpression.matches'_add, Language.mem_add, or_assoc,
      List.exists_mem_cons_iff]

theorem mem_lasts_foldl (parts : List (Node × ℕ)) (tree : Node) (k : ℕ) :
    k ∈ (parts.foldl (fun tree next => orNode tree (ended next)) tree).expr.lasts ↔
      k ∈ tree.expr.lasts ∨ k ∈ parts.map Prod.snd := by
  induction parts generalizing tree with
  | nil => simp
  | cons part parts ih =>
    have hor : k ∈ (orNode tree (ended part)).expr.lasts ↔ k ∈ tree.expr.lasts ∨ k = part.2 := by
      rw [← Finset.mem_singleton, ← lasts_ended]
      exact Finset.mem_union
    rw [List.foldl_cons, ih, hor, or_assoc, List.map_cons, List.mem_cons]

theorem mem_matches'_joined {part : Node × ℕ} {parts : List (Node × ℕ)} {w : List ℕ} :
    w ∈ (joined part parts).expr.matches' ↔
      ∃ p ∈ part :: parts, ∃ u ∈ p.1.expr.matches', w = u ++ [p.2] := by
  rw [joined, mem_matches'_foldl, mem_matches'_ended, List.exists_mem_cons_iff]
  refine or_congr_right (exists_congr fun p => and_congr_right fun _ => ?_)
  exact mem_matches'_ended

theorem mem_lasts_joined {part : Node × ℕ} {parts : List (Node × ℕ)} {k : ℕ} :
    k ∈ (joined part parts).expr.lasts ↔ k ∈ (part :: parts).map Prod.snd := by
  rw [joined, mem_lasts_foldl, lasts_ended, Finset.mem_singleton, List.map_cons, List.mem_cons]

theorem mem_positions_foldl (parts : List (Node × ℕ)) (tree : Node) (k : ℕ) :
    k ∈ (parts.foldl (fun tree next => orNode tree (ended next)) tree).expr.positions ↔
      k ∈ tree.expr.positions ∨ ∃ p ∈ parts, k ∈ (ended p).expr.positions := by
  induction parts generalizing tree with
  | nil => simp
  | cons part parts ih =>
    have hor : k ∈ (orNode tree (ended part)).expr.positions ↔
        k ∈ tree.expr.positions ∨ k ∈ (ended part).expr.positions := List.mem_append
    rw [List.foldl_cons, ih, hor, or_assoc, List.exists_mem_cons_iff]

/-- A position of an expression is one of the whole tree. -/
theorem mem_positions_joined {part p : Node × ℕ} {parts : List (Node × ℕ)}
    (hp : p ∈ part :: parts) {k : ℕ} (hk : k ∈ p.1.expr.positions) :
    k ∈ (joined part parts).expr.positions := by
  have hended : k ∈ (ended p).expr.positions := List.mem_append_left _ hk
  rw [joined, mem_positions_foldl]
  rcases List.mem_cons.mp hp with rfl | hp
  · exact .inl hended
  · exact .inr ⟨p, hp, hended⟩

theorem length_numberedFrom (n : ℕ) (trees : List Node) :
    (numberedFrom n trees).length = trees.length := by
  induction trees generalizing n with
  | nil => rfl
  | cons tree trees ih => rw [numberedFrom, List.length_cons, List.length_cons, ih]

/-- The numbers of the ends ascend in the order of the expressions. -/
theorem ascends_ends (n : ℕ) (trees : List Node) :
    Ascends n (n + (trees.flatMap fun t => (withEof t).rows).length)
      ((numberedFrom n trees).map Prod.snd) := by
  induction trees generalizing n with
  | nil => exact .nil n _
  | cons tree trees ih =>
    have hrows : (withEof tree).rows.length = tree.rows.length + 1 := by
      rw [withEof, rows, List.length_append]
      rfl
    have hend : (tree.assignNodeIds n).2 = n + tree.rows.length := assignNodeIds_snd tree n
    rw [numberedFrom, List.map_cons, List.flatMap_cons, List.length_append, hrows]
    have hfirst : Ascends n (n + tree.rows.length + 1) [n + tree.rows.length] :=
      ⟨List.pairwise_singleton _ _, fun k hk => by rw [List.mem_singleton.mp hk]; omega⟩
    have hrest := ih (n + tree.rows.length + 1)
    rw [hend]
    have h := hfirst.append hrest (by omega) (Nat.le_add_right _ _)
    rwa [List.singleton_append, Nat.add_assoc n, Nat.add_assoc n] at h

/-- Read with its flags, the numbered tree of an expression has the texts of the expression. -/
theorem texts_numberedFrom {stateMatch : StateMatch} {trees : List Node} {n : ℕ}
    (h : HoldsAt stateMatch n (trees.flatMap fun t => (withEof t).rows)) {k : ℕ} {tree : Node}
    {part : Node × ℕ} (htree : trees[k]? = some tree)
    (hpart : (numberedFrom n trees)[k]? = some part) :
    part.1.expr.texts (readsAt stateMatch) = tree.lang := by
  induction trees generalizing n k with
  | nil => cases htree
  | cons first trees ih =>
    rw [List.flatMap_cons] at h
    obtain ⟨hfirst, hrest⟩ := holdsAt_append h
    cases k with
    | zero =>
      cases htree
      cases hpart
      exact texts_assign (holdsAt_append hfirst).1
    | succ k =>
      refine ih (n := (first.assignNodeIds n).2 + 1) ?_ htree hpart
      rw [assignNodeIds_snd]
      rw [withEof, rows, List.length_append] at hrest
      exact hrest

/-- The numbered tree of a list of expressions. -/
def numberedTree (tree : Node) (trees : List Node) : Node :=
  ((alternatives tree trees).assignNodeIds 0).1

theorem numberedTree_eq (tree : Node) (trees : List Node) :
    numberedTree tree trees = joined (tree.assignNodeIds 0)
      (numberedFrom ((tree.assignNodeIds 0).2 + 1) trees) :=
  assign_alternatives tree trees 0

theorem linear_numberedTree (tree : Node) (trees : List Node) :
    (numberedTree tree trees).expr.Linear :=
  (ascends_positions (alternatives tree trees) 0).nodup

/-- The automaton of the list is at the end of an expression after the texts that are read at the
words of the expression. -/
theorem end_mem_after {reads : ℕ → UInt8 → Bool} {tree : Node} {trees : List Node} {k : ℕ}
    {part : Node × ℕ} (hpart : (numberedFrom 0 (tree :: trees))[k]? = some part) {x : Text} :
    part.2 ∈ (numberedTree tree trees).expr.after reads (numberedTree tree trees).expr.firsts x ↔
      x ∈ part.1.expr.texts reads := by
  have hmem : part ∈ numberedFrom 0 (tree :: trees) := List.mem_of_getElem? hpart
  have hlast : part.2 ∈ (numberedTree tree trees).expr.lasts := by
    rw [numberedTree_eq, mem_lasts_joined]
    exact List.mem_map_of_mem hmem
  have hnodup : ((numberedFrom 0 (tree :: trees)).map Prod.snd).Nodup :=
    (ascends_ends 0 (tree :: trees)).nodup
  rw [RegularExpression.mem_after_firsts (linear_numberedTree tree trees) hlast,
    RegularExpression.mem_texts]
  constructor
  · rintro ⟨w, hread, hw⟩
    rw [numberedTree_eq, mem_matches'_joined] at hw
    obtain ⟨p, hp, u, hu, heq⟩ := hw
    obtain ⟨rfl, hend⟩ := List.append_inj' heq rfl
    have hpp : part = p := List.inj_on_of_nodup_map hnodup hmem hp (List.head_eq_of_cons_eq hend)
    rw [hpp]
    exact ⟨w, hu, hread⟩
  · rintro ⟨w, hw, hread⟩
    refine ⟨w, hread, ?_⟩
    rw [numberedTree_eq, mem_matches'_joined]
    exact ⟨part, hmem, w, hw, rfl⟩

/-! ## The ends -/

/-- The tree of an expression has no ends in it. -/
def endFree : Node → Bool
  | charNode _ _ => true
  | epsilonNode _ => true
  | orNode left right => endFree left && endFree right
  | catNode left right => endFree left && endFree right
  | starNode left => endFree left
  | eofNode _ => false
  | cclNode _ _ => true

theorem getEofIds_of_endFree {tree : Node} (h : endFree tree = true) (n : ℕ) (eofSet : NodeSet) :
    (tree.assignNodeIds n).1.getEofIds eofSet = eofSet := by
  induction tree generalizing n eofSet with
  | charNode c k => rfl
  | epsilonNode k => rfl
  | orNode l r ihl ihr =>
    rw [endFree, Bool.and_eq_true] at h
    rw [assignNodeIds, getEofIds, ihl h.1, ihr h.2]
  | catNode l r ihl ihr =>
    rw [endFree, Bool.and_eq_true] at h
    rw [assignNodeIds, getEofIds, ihl h.1, ihr h.2]
  | starNode l ih => exact ih h n eofSet
  | eofNode k => cases h
  | cclNode flags k => rfl

theorem getEofIds_foldl {parts : List (Node × ℕ)}
    (h : ∀ p ∈ parts, ∀ eofSet, p.1.getEofIds eofSet = eofSet) (tree : Node) (eofSet : NodeSet) :
    (parts.foldl (fun tree next => orNode tree (ended next)) tree).getEofIds eofSet =
      tree.getEofIds eofSet ∪ (parts.map Prod.snd).toFinset := by
  induction parts generalizing tree with
  | nil => simp
  | cons part parts ih =>
    obtain ⟨hpart, hparts⟩ := List.forall_mem_cons.mp h
    rw [List.foldl_cons, ih hparts, getEofIds, ended, getEofIds, hpart, getEofIds, List.map_cons,
      List.toFinset_cons, Finset.insert_union, Finset.union_insert]

theorem getEofIds_numberedFrom {trees : List Node} (h : ∀ t ∈ trees, endFree t = true) (n : ℕ) :
    ∀ p ∈ numberedFrom n trees, ∀ eofSet, p.1.getEofIds eofSet = eofSet := by
  induction trees generalizing n with
  | nil => exact fun p hp => absurd hp List.not_mem_nil
  | cons tree trees ih =>
    obtain ⟨htree, htrees⟩ := List.forall_mem_cons.mp h
    exact List.forall_mem_cons.mpr ⟨getEofIds_of_endFree htree n, ih htrees _⟩

/-- The ends of the tree are those of its expressions. -/
theorem getEofIds_numberedTree {tree : Node} {trees : List Node}
    (h : ∀ t ∈ tree :: trees, endFree t = true) :
    (numberedTree tree trees).getEofIds ∅ =
      ((numberedFrom 0 (tree :: trees)).map Prod.snd).toFinset := by
  obtain ⟨hfirst, hrest⟩ := List.forall_mem_cons.mp (getEofIds_numberedFrom h 0)
  rw [numberedTree_eq, joined, getEofIds_foldl hrest, ended, getEofIds, hfirst, getEofIds,
    numberedFrom, List.map_cons, List.toFinset_cons, Finset.insert_union, Finset.empty_union]

end P4LS.Slex
