import P4LS.Slex.Viable

/-!
# Matching with the tables

`do_match` follows the table through the text.  On the tables of the construction it never reads
outside them.  It finds the longest nonempty prefix that an expression is matched with, and of the
expressions matched with it the first.  The characters appended to the token are those followed,
which are the longest prefix that can be completed.
-/

namespace P4LS.Slex

open LongestMatch

/-- The loop of `do_match`, with the last accepting state, what is left behind it and the token;
`none` is an access outside the tables. -/
def matchLoop (dfa : DfaTable) :
    ℕ → Option (ℕ × Text) → Text → Text → Option (Option (ℕ × Text) × Text)
  | _, lastAccepting, token, [] => some (lastAccepting, token)
  | s, lastAccepting, token, c :: p =>
    match dfa.transitionTable[s]? with
    | none => none
    | some row =>
      match row[c.toNat]? with
      | none => none
      | some none => some (lastAccepting, token)
      | some (some s) =>
        match dfa.acceptanceIndex[s]? with
        | none => none
        | some none => matchLoop dfa s lastAccepting (token ++ [c]) p
        | some (some _) => matchLoop dfa s (some (s, p)) (token ++ [c]) p

/-- `do_match`: if there is a match, the index of the expression and what is left; and the
token. -/
def doMatch (dfa : DfaTable) (first token : Text) : Option (Option (ℕ × Text) × Text) :=
  match matchLoop dfa 0 none token first with
  | none => none
  | some (none, token) => some (none, token)
  | some (some (s, rest), token) =>
    match dfa.acceptanceIndex[s]? with
    | none => none
    | some none => none
    | some (some regexIndex) => some (some (regexIndex, rest), token)

/-- The match of a text: the longest prefix matched, for the first expression. -/
inductive Munch (caseInsensitive : Bool) (trees : List Node) (x : Text) :
    Option (ℕ × Text) → Prop
  | longest {u rest : Text} {k : ℕ} : x = u ++ rest →
      IsLongest (fun u => u ≠ [] ∧ Matched caseInsensitive trees u) x u →
      FirstMatched caseInsensitive trees u k → Munch caseInsensitive trees x (some (k, rest))
  | nothing : (∀ u, u <+: x → u ≠ [] → ¬Matched caseInsensitive trees u) →
      Munch caseInsensitive trees x none

/-- What the tables of a list of expressions do. -/
structure DfaTable.Recognizes (dfa : DfaTable) (caseInsensitive : Bool) (trees : List Node) :
    Prop where
  wellFormed : dfa.WellFormed
  index_lt : ∀ k, some k ∈ dfa.acceptanceIndex → k < trees.length
  accepts : ∀ x k, (after dfa.next 0 x).bind dfa.accept = some k ↔
    FirstMatched caseInsensitive trees x k
  follows : ∀ x, (after dfa.next 0 x).isSome ↔ Viable caseInsensitive trees x

variable {caseInsensitive : Bool} {trees : List Node} {dfa : DfaTable}

/-! ## The expressions matched -/

theorem FirstMatched.unique {x : Text} {j k : ℕ} (hj : FirstMatched caseInsensitive trees x j)
    (hk : FirstMatched caseInsensitive trees x k) : j = k := by
  obtain ⟨⟨t, ht, hx⟩, hjfirst⟩ := hj
  obtain ⟨⟨t', ht', hx'⟩, hkfirst⟩ := hk
  rcases Nat.lt_trichotomy j k with hlt | rfl | hlt
  · exact absurd hx (hkfirst j hlt t ht)
  · rfl
  · exact absurd hx' (hjfirst k hlt t' ht')

/-- Of the expressions matched there is a first. -/
theorem exists_firstMatched {x : Text} :
    (∃ k, FirstMatched caseInsensitive trees x k) ↔ Matched caseInsensitive trees x := by
  constructor
  · rintro ⟨k, ⟨t, ht, hx⟩, _⟩
    exact ⟨t, List.mem_of_getElem? ht, hx⟩
  · rintro ⟨t, ht, hx⟩
    classical
    obtain ⟨i, hi⟩ := List.mem_iff_getElem?.mp ht
    have hsome : ∃ k t, trees[k]? = some t ∧ x ∈ matched caseInsensitive t := ⟨i, t, hi, hx⟩
    exact ⟨Nat.find hsome, Nat.find_spec hsome, fun j hj t' ht' hx' =>
      Nat.find_min hsome hj ⟨t', ht', hx'⟩⟩

theorem Munch.unique {x : Text} {found found' : Option (ℕ × Text)}
    (h : Munch caseInsensitive trees x found) (h' : Munch caseInsensitive trees x found') :
    found = found' := by
  cases h with
  | longest hx hlongest hfirst =>
    cases h' with
    | longest hx' hlongest' hfirst' =>
      have hu := hlongest.unique hlongest'
      subst hu
      rw [hfirst.unique hfirst', List.append_cancel_left (hx.symm.trans hx')]
    | nothing hnone => exact absurd hlongest.holds.2 (hnone _ hlongest.isPrefix hlongest.holds.1)
  | nothing hnone =>
    cases h' with
    | longest hx' hlongest' hfirst' =>
      exact absurd hlongest'.holds.2 (hnone _ hlongest'.isPrefix hlongest'.holds.1)
    | nothing _ => rfl

/-- What is left behind a match is shorter. -/
theorem Munch.length_lt {x rest : Text} {k : ℕ}
    (h : Munch caseInsensitive trees x (some (k, rest))) : rest.length < x.length := by
  cases h with
  | longest hx hlongest _ =>
    rw [hx, List.length_append]
    exact Nat.lt_add_of_pos_left (List.length_pos_iff.mpr hlongest.holds.1)

/-! ## The loop -/

theorem DfaTable.WellFormed.lt_of_next (h : dfa.WellFormed) {s t : ℕ} {c : UInt8}
    (hnext : dfa.next s c = some t) : t < dfa.transitionTable.length := by
  obtain ⟨row, hrow, hentry⟩ := Option.bind_eq_some_iff.mp (Option.join_eq_some_iff.mp hnext)
  exact h.entry_lt row (List.mem_of_getElem? hrow) t (List.mem_of_getElem? hentry)

/-- On well-formed tables the loop is the scan of the automaton. -/
theorem matchLoop_eq_scan (h : dfa.WellFormed) {s : ℕ} (hs : s < dfa.transitionTable.length)
    (lastAccepting : Option (ℕ × Text)) (token x : Text) :
    matchLoop dfa s lastAccepting token x =
      some (scan dfa.next dfa.accept s x lastAccepting token) := by
  induction x generalizing s lastAccepting token with
  | nil => rfl
  | cons c x ih =>
    have hc : c.toNat < dfa.transitionTable[s].length := by
      rw [h.length_row _ (List.getElem_mem hs)]
      exact c.toNat_lt
    have hnext : dfa.next s c = dfa.transitionTable[s][c.toNat] := by
      rw [DfaTable.next, List.getElem?_eq_getElem hs, Option.bind_some,
        List.getElem?_eq_getElem hc, Option.join_some]
    rw [matchLoop, scan, hnext, List.getElem?_eq_getElem hs]
    simp only [List.getElem?_eq_getElem hc]
    cases hentry : dfa.transitionTable[s][c.toNat] with
    | none => rfl
    | some t =>
      have ht : t < dfa.transitionTable.length := h.lt_of_next (hnext.trans hentry)
      have ht' : t < dfa.acceptanceIndex.length := h.length_acceptanceIndex ▸ ht
      have haccept : dfa.accept t = dfa.acceptanceIndex[t] := by
        rw [DfaTable.accept, List.getElem?_eq_getElem ht', Option.join_some]
      simp only [List.getElem?_eq_getElem ht', haccept]
      cases hacc : dfa.acceptanceIndex[t] with
      | none => exact ih ht lastAccepting (token ++ [c])
      | some k => exact ih ht (some (t, x)) (token ++ [c])

/-- The nonempty texts that the tables accept are those matched. -/
theorem DfaTable.Recognizes.accepted_iff (h : dfa.Recognizes caseInsensitive trees) (u : Text) :
    Accepted dfa.next dfa.accept 0 u ↔ u ≠ [] ∧ Matched caseInsensitive trees u := by
  refine and_congr_right fun _ => ?_
  rw [← exists_firstMatched]
  constructor
  · rintro ⟨t, ht, hsome⟩
    obtain ⟨k, hk⟩ := Option.isSome_iff_exists.mp hsome
    exact ⟨k, (h.accepts u k).mp (Option.bind_eq_some_iff.mpr ⟨t, ht, hk⟩)⟩
  · rintro ⟨k, hk⟩
    obtain ⟨t, ht, hk⟩ := Option.bind_eq_some_iff.mp ((h.accepts u k).mpr hk)
    exact ⟨t, ht, Option.isSome_of_mem hk⟩

/-- `do_match` gives the match of the text, and appends to the token the longest prefix that can be
completed. -/
theorem doMatch_spec (h : dfa.Recognizes caseInsensitive trees) (x token : Text) :
    ∃ found v, doMatch dfa x token = some (found, token ++ v) ∧
      Munch caseInsensitive trees x found ∧ IsLongest (Viable caseInsensitive trees) x v := by
  have hloop := matchLoop_eq_scan h.wellFormed h.wellFormed.nonempty none token x
  obtain ⟨v, htoken, hviable⟩ := scan_token dfa.next dfa.accept 0 x none token
  have hv := hviable.congr fun w _ => h.follows w
  rcases scan_last dfa.next dfa.accept 0 x none token with
    ⟨u, t, rest, hlongest, hafter, hx, hlast⟩ | ⟨hnone, hlast⟩
  · obtain ⟨k, hk⟩ := exists_firstMatched.mpr ((h.accepted_iff u).mp hlongest.holds).2
    have haccept : dfa.acceptanceIndex[t]?.join = some k := by
      have hbind := (h.accepts u k).mpr hk
      rwa [hafter, Option.bind_some] at hbind
    have hindex : dfa.acceptanceIndex[t]? = some (some k) := Option.join_eq_some_iff.mp haccept
    refine ⟨some (k, rest), v, ?_, .longest hx (hlongest.congr fun w _ => h.accepted_iff w) hk, hv⟩
    rw [doMatch, hloop]
    rw [show scan dfa.next dfa.accept 0 x none token = (some (t, rest), token ++ v) from
      Prod.ext hlast htoken]
    simp only [hindex]
  · refine ⟨none, v, ?_, .nothing fun u hu hne hmatched =>
      hnone u hu ((h.accepted_iff u).mpr ⟨hne, hmatched⟩), hv⟩
    rw [doMatch, hloop]
    rw [show scan dfa.next dfa.accept 0 x none token = (none, token ++ v) from
      Prod.ext hlast htoken]

theorem doMatch_eq (h : dfa.Recognizes caseInsensitive trees) {x v : Text}
    {found : Option (ℕ × Text)} (hfound : Munch caseInsensitive trees x found)
    (hv : IsLongest (Viable caseInsensitive trees) x v) (token : Text) :
    doMatch dfa x token = some (found, token ++ v) := by
  obtain ⟨found', v', hmatch, hfound', hv'⟩ := doMatch_spec h x token
  rw [hmatch, hfound.unique hfound', hv.unique hv']

variable (caseInsensitive) in
/-- The construction gives tables that recognize the expressions. -/
theorem createDfaForState_recognizes {grammar : Text → Option Node} {strs : List Text}
    {tree : Node} (hparse : strs.mapM grammar = some (tree :: trees))
    (hpopulated : ∀ t ∈ tree :: trees, populated t = true) :
    ∃ dfa, createDfaForState grammar caseInsensitive strs ⟨[], []⟩ = .ok dfa ∧
      dfa.Recognizes caseInsensitive (tree :: trees) ∧
      dfa.transitionTable.length ≤ 2 ^ (alternatives tree trees).rows.length := by
  obtain ⟨dfa, hdfa, hwellFormed, hstates, hindex, haccepts, hfollows⟩ :=
    createDfaForState_spec caseInsensitive hparse
      fun t ht => endFree_of_populated (hpopulated t ht)
  exact ⟨dfa, hdfa, ⟨hwellFormed, hindex, haccepts, fun x =>
    (hfollows x).trans (setAfter_nonempty_iff hpopulated x)⟩, hstates⟩

/-- Expressions are matched alike if what they are matched with is the same one by one. -/
theorem firstMatched_congr {ts ts' : List Node}
    (hsame : ts.map (matched caseInsensitive) = ts'.map (matched caseInsensitive)) (x : Text)
    (k : ℕ) : FirstMatched caseInsensitive ts x k ↔ FirstMatched caseInsensitive ts' x k := by
  have hat : ∀ (ts : List Node) (i : ℕ),
      (∃ t, ts[i]? = some t ∧ x ∈ matched caseInsensitive t) ↔
        ∃ L, (ts.map (matched caseInsensitive))[i]? = some L ∧ x ∈ L := by
    intro ts i
    rw [List.getElem?_map]
    constructor
    · rintro ⟨t, ht, hx⟩
      exact ⟨_, Option.map_eq_some_iff.mpr ⟨t, ht, rfl⟩, hx⟩
    · rintro ⟨L, hL, hx⟩
      obtain ⟨t, ht, rfl⟩ := Option.map_eq_some_iff.mp hL
      exact ⟨t, ht, hx⟩
  have hboth : ∀ i, (∃ t, ts[i]? = some t ∧ x ∈ matched caseInsensitive t) ↔
      ∃ t, ts'[i]? = some t ∧ x ∈ matched caseInsensitive t :=
    fun i => by rw [hat ts, hat ts', hsame]
  refine and_congr (hboth k) (forall₂_congr fun i _ => ?_)
  have hnone := not_congr (hboth i)
  simp only [not_exists, not_and] at hnone
  exact hnone

theorem matched_congr {ts ts' : List Node}
    (hsame : ts.map (matched caseInsensitive) = ts'.map (matched caseInsensitive)) (x : Text) :
    Matched caseInsensitive ts x ↔ Matched caseInsensitive ts' x := by
  rw [← exists_firstMatched, ← exists_firstMatched]
  exact exists_congr fun k => firstMatched_congr hsame x k

theorem DfaTable.Recognizes.congr {ts ts' : List Node}
    (h : dfa.Recognizes caseInsensitive ts)
    (hsame : ts.map (matched caseInsensitive) = ts'.map (matched caseInsensitive)) :
    dfa.Recognizes caseInsensitive ts' where
  wellFormed := h.wellFormed
  index_lt k hk := by
    have hlength := congrArg List.length hsame
    rw [List.length_map, List.length_map] at hlength
    exact hlength ▸ h.index_lt k hk
  accepts x k := (h.accepts x k).trans (firstMatched_congr hsame x k)
  follows x := (h.follows x).trans (exists_congr fun y => matched_congr hsame (x ++ y))

end P4LS.Slex
