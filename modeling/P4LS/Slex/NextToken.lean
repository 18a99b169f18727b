import P4LS.Library.Bytes
import P4LS.Slex.Lexer

/-!
# What `next_token` returns

`Lexes` says what a call returns in terms of the texts that the expressions are matched with, with
one constructor for each way through `next_token`.  A call returns exactly what it says, for any
callbacks.  If the callbacks never move back and only go to states of the lexer, every call
returns.
-/

namespace P4LS.Slex

open Bytes LongestMatch

/-- What a call of `next_token` leaves. -/
structure Reached where
  id : ℤ
  rest : Text
  token : Text
  state : ℕ
  stateStack : List ℕ

namespace Lexer

/-- The expression of an index in a state. -/
def regexAt (lexer : Lexer) (state k : ℕ) : Option RegexInfo :=
  lexer.regexList[state]?.bind fun regexes => regexes[k]?

/-- What one match leaves: the rest of the text, and the control after the callback. -/
inductive MatchStep (caseInsensitive : Bool) (regexAt : ℕ → ℕ → Option RegexInfo)
    (trees : List (List Node)) (state : ℕ) (stateStack : List ℕ) (first : Text) :
    Text → LexerControl → Prop
  | nothing {ts : List Node} : trees[state]? = some ts → Munch caseInsensitive ts first none →
      MatchStep caseInsensitive regexAt trees state stateStack first first
        ⟨-1, false, state, stateStack⟩
  | plain {ts : List Node} {k : ℕ} {rest : Text} {regex : RegexInfo} : trees[state]? = some ts →
      Munch caseInsensitive ts first (some (k, rest)) → regexAt state k = some regex →
      regex.callback = none →
      MatchStep caseInsensitive regexAt trees state stateStack first rest
        ⟨regex.token, false, state, stateStack⟩
  | called {ts : List Node} {k : ℕ} {rest rest' : Text} {regex : RegexInfo} {callback : Callback}
      {control : LexerControl} : trees[state]? = some ts →
      Munch caseInsensitive ts first (some (k, rest)) → regexAt state k = some regex →
      regex.callback = some callback →
      callback first rest regex.token ⟨regex.token, false, state, stateStack⟩ = (rest', control) →
      MatchStep caseInsensitive regexAt trees state stateStack first rest' control

/-- What a call returns: the first token that is not ignored. -/
inductive Lexes (caseInsensitive : Bool) (regexAt : ℕ → ℕ → Option RegexInfo)
    (trees : List (List Node)) : ℕ → List ℕ → Text → Text → Reached → Prop
  | returned {state : ℕ} {stateStack : List ℕ} {first token rest v : Text} {ts : List Node}
      {control : LexerControl} :
      MatchStep caseInsensitive regexAt trees state stateStack first rest control →
      control.ignoreCurrentTokenSet = false → trees[state]? = some ts →
      IsLongest (Viable caseInsensitive ts) first v →
      Lexes caseInsensitive regexAt trees state stateStack first token
        ⟨control.token, rest, token ++ v, control.currentState, control.stateStack⟩
  | ignored {state : ℕ} {stateStack : List ℕ} {first token rest : Text} {control : LexerControl}
      {result : Reached} :
      MatchStep caseInsensitive regexAt trees state stateStack first rest control →
      control.ignoreCurrentTokenSet = true →
      Lexes caseInsensitive regexAt trees control.currentState control.stateStack rest [] result →
      Lexes caseInsensitive regexAt trees state stateStack first token result

/-- The tables are made: those of a state recognize its expressions. -/
structure Ready (lexer : Lexer) (trees : List (List Node)) : Prop where
  compiledDfa : lexer.compiledDfa = true
  length_dfa : lexer.dfa.length = trees.length
  tables : ∀ (state : ℕ) (ts : List Node), trees[state]? = some ts →
    ∃ dfa : DfaTable, lexer.dfa[state]? = some dfa ∧ dfa.Recognizes lexer.caseInsensitive ts
  regexes : ∀ (state : ℕ) (ts : List Node), trees[state]? = some ts →
    ∃ infos : List RegexInfo, lexer.regexList[state]? = some infos ∧ infos.length = ts.length

/-- The expressions of each state have trees. -/
structure Parsed (grammar : Text → Option Node) (lexer : Lexer) (trees : List (List Node)) :
    Prop where
  length_regexList : lexer.regexList.length = lexer.numStates
  parses : List.Forall₂ (fun regexes ts => (regexes.map RegexInfo.str).mapM grammar = some ts ∧
    ts ≠ [] ∧ ∀ t ∈ ts, populated t = true) lexer.regexList trees

/-- The lexer in another state. -/
def withStates (lexer : Lexer) (state : ℕ) (stateStack : List ℕ) : Lexer :=
  { lexer with state := state, stateStack := stateStack }

variable {grammar : Text → Option Node} {lexer : Lexer} {trees : List (List Node)}

theorem Ready.withStates (h : lexer.Ready trees) (state : ℕ) (stateStack : List ℕ) :
    (lexer.withStates state stateStack).Ready trees where
  compiledDfa := h.compiledDfa
  length_dfa := h.length_dfa
  tables := h.tables
  regexes := h.regexes

/-! ## The tables -/

theorem mapM_length {α β : Type} {f : α → Option β} {xs : List α} {ys : List β}
    (h : xs.mapM f = some ys) : ys.length = xs.length := by
  induction xs generalizing ys with
  | nil =>
    rw [List.mapM_nil] at h
    cases h
    rfl
  | cons x xs ih =>
    rw [List.mapM_cons] at h
    obtain ⟨y, _, h⟩ := Option.bind_eq_some_iff.mp h
    obtain ⟨ys', hys, h⟩ := Option.bind_eq_some_iff.mp h
    cases h
    rw [List.length_cons, List.length_cons, ih hys]

/-- The states before `n` have their tables; the others have none yet. -/
structure MadeBelow (lexer : Lexer) (trees : List (List Node)) (n : ℕ) : Prop where
  length_dfa : lexer.dfa.length = trees.length
  made : ∀ state < n, ∀ ts : List Node, trees[state]? = some ts →
    ∃ dfa : DfaTable, lexer.dfa[state]? = some dfa ∧ dfa.Recognizes lexer.caseInsensitive ts
  empty : ∀ state, n ≤ state → state < trees.length → lexer.dfa[state]? = some ⟨[], []⟩

theorem MadeBelow.set {n : ℕ} (h : lexer.MadeBelow trees n) {ts : List Node} {dfa : DfaTable}
    (hts : trees[n]? = some ts) (hdfa : dfa.Recognizes lexer.caseInsensitive ts) :
    MadeBelow { lexer with dfa := lexer.dfa.set n dfa, compiledDfa := true } trees (n + 1) where
  length_dfa := by
    change (lexer.dfa.set n dfa).length = _
    rw [List.length_set, h.length_dfa]
  made state hstate ts' hts' := by
    change ∃ dfa', (lexer.dfa.set n dfa)[state]? = some dfa' ∧ _
    rcases Nat.lt_succ_iff_lt_or_eq.mp hstate with hlt | rfl
    · rw [List.getElem?_set_ne (Nat.ne_of_gt hlt)]
      exact h.made state hlt ts' hts'
    · have hn : state < lexer.dfa.length := by
        rw [h.length_dfa]
        exact (List.getElem?_eq_some_iff.mp hts).1
      refine ⟨dfa, List.getElem?_set_self hn, ?_⟩
      rw [hts] at hts'
      cases hts'
      exact hdfa
  empty state hstate hlt := by
    change (lexer.dfa.set n dfa)[state]? = _
    rw [List.getElem?_set_ne (Nat.ne_of_lt hstate)]
    exact h.empty state (Nat.le_of_succ_le hstate) hlt

/-- The tables are made one after another. -/
theorem createStates_made (h : lexer.Parsed grammar trees) (m n : ℕ) (hmn : n + m = trees.length)
    (hmade : lexer.MadeBelow trees n) (hcompiled : 0 < n → lexer.compiledDfa = true) :
    ∃ lexer', createStates grammar (List.range' n m) lexer = (.ok (), lexer') ∧
      lexer'.MadeBelow trees (n + m) ∧
      lexer' = { lexer with dfa := lexer'.dfa, compiledDfa := lexer'.compiledDfa } ∧
      (0 < n + m → lexer'.compiledDfa = true) := by
  induction m generalizing n lexer with
  | zero => exact ⟨lexer, rfl, hmade, rfl, hcompiled⟩
  | succ m ih =>
    have hn : n < trees.length := by omega
    have hn' : n < lexer.regexList.length := h.parses.length_eq ▸ hn
    obtain ⟨hparse, hne, hpopulated⟩ := h.parses.get hn' hn
    obtain ⟨t, ts, hts⟩ := List.exists_cons_of_ne_nil hne
    simp only [List.get_eq_getElem] at hparse hpopulated hts
    rw [hts] at hparse hpopulated
    obtain ⟨dfa, hdfa, hrecognizes, _⟩ :=
      createDfaForState_recognizes lexer.caseInsensitive hparse hpopulated
    have htrees : trees[n]? = some (t :: ts) := by rw [List.getElem?_eq_getElem hn, hts]
    have hparsed : Parsed grammar
        { lexer with dfa := lexer.dfa.set n dfa, compiledDfa := true } trees :=
      ⟨h.length_regexList, h.parses⟩
    obtain ⟨lexer', hcreate, hmade', hlexer', hcompiled'⟩ := ih hparsed (n + 1) (by omega)
      (hmade.set htrees hrecognizes) fun _ => rfl
    have hcount : n + 1 + m = n + (m + 1) := by omega
    rw [hcount] at hmade' hcompiled'
    refine ⟨lexer', ?_, hmade', hlexer', hcompiled'⟩
    rw [List.range'_succ, createStates, List.getElem?_eq_getElem hn',
      hmade.empty n (Nat.le_refl n) hn]
    simp only [hdfa]
    exact hcreate

theorem ready_of_made (h : lexer.Parsed grammar trees)
    (hmade : lexer.MadeBelow trees trees.length) (hcompiled : lexer.compiledDfa = true) :
    lexer.Ready trees where
  compiledDfa := hcompiled
  length_dfa := hmade.length_dfa
  tables state ts hts := hmade.made state (List.getElem?_eq_some_iff.mp hts).1 ts hts
  regexes state ts hts := by
    obtain ⟨hstate, rfl⟩ := List.getElem?_eq_some_iff.mp hts
    have hstate' : state < lexer.regexList.length := h.parses.length_eq ▸ hstate
    refine ⟨lexer.regexList[state], List.getElem?_eq_getElem hstate', ?_⟩
    have hlength := mapM_length (h.parses.get hstate' hstate).1
    rw [List.length_map] at hlength
    exact hlength.symm

/-- `create_dfa` makes the tables of a lexer that has none. -/
theorem createDfa_ready (h : lexer.Parsed grammar trees) (hne : trees ≠ [])
    (hdfa : lexer.dfa = []) :
    ∃ lexer', lexer.createDfa grammar = (.ok (), lexer') ∧ lexer'.Ready trees ∧
      lexer' = { lexer with dfa := lexer'.dfa, compiledDfa := true } := by
  have hcount : lexer.numStates = trees.length := h.length_regexList ▸ h.parses.length_eq
  have hresize : resize lexer.dfa lexer.numStates ⟨[], []⟩ =
      List.replicate trees.length ⟨[], []⟩ := by
    rw [hdfa, hcount, resize, List.take_nil, List.nil_append, List.length_nil, Nat.sub_zero]
  have hstart : MadeBelow { lexer with dfa := resize lexer.dfa lexer.numStates ⟨[], []⟩ } trees 0 :=
    { length_dfa := by
        change (resize lexer.dfa lexer.numStates ⟨[], []⟩).length = _
        rw [hresize, List.length_replicate]
      made := fun state hstate => absurd hstate (Nat.not_lt_zero state)
      empty := fun state _ hlt => by
        change (resize lexer.dfa lexer.numStates ⟨[], []⟩)[state]? = _
        rw [hresize, List.getElem?_replicate, if_pos hlt] }
  have hparsed : Parsed grammar
      { lexer with dfa := resize lexer.dfa lexer.numStates ⟨[], []⟩ } trees :=
    ⟨h.length_regexList, h.parses⟩
  obtain ⟨lexer', hcreate, hmade, hlexer', hcompiled⟩ := createStates_made hparsed trees.length 0
    (Nat.zero_add _) hstart fun hlt => absurd hlt (Nat.lt_irrefl 0)
  rw [Nat.zero_add] at hmade hcompiled
  have hcompiled' : lexer'.compiledDfa = true := hcompiled (List.length_pos_iff.mpr hne)
  rw [hcompiled'] at hlexer'
  have hparsed' : Parsed grammar lexer' trees := by
    rw [hlexer']
    exact ⟨h.length_regexList, h.parses⟩
  refine ⟨lexer', ?_, ready_of_made hparsed' hmade hcompiled', hlexer'⟩
  rw [createDfa, List.range_eq_range']
  rwa [← hcount] at hcreate

/-! ## One call -/

theorem Ready.doMatch_eq (h : lexer.Ready trees) {state : ℕ} {ts : List Node}
    (hts : trees[state]? = some ts) {first v : Text} {found : Option (ℕ × Text)}
    (hfound : Munch lexer.caseInsensitive ts first found)
    (hv : IsLongest (Viable lexer.caseInsensitive ts) first v) (token : Text) :
    (lexer.dfa[state]?.bind fun dfa => doMatch dfa first token) = some (found, token ++ v) := by
  obtain ⟨dfa, hdfa, hrecognizes⟩ := h.tables state ts hts
  rw [hdfa, Option.bind_some, Slex.doMatch_eq hrecognizes hfound hv]

/-- The expression of a match is registered. -/
theorem Ready.exists_regexAt (h : lexer.Ready trees) {state : ℕ} {ts : List Node}
    (hts : trees[state]? = some ts) {first rest : Text} {k : ℕ}
    (hfound : Munch lexer.caseInsensitive ts first (some (k, rest))) :
    ∃ regex, lexer.regexAt state k = some regex := by
  obtain ⟨infos, hinfos, hlength⟩ := h.regexes state ts hts
  cases hfound with
  | longest _ _ hfirst =>
    obtain ⟨t, ht, _⟩ := hfirst.1
    have hk : k < infos.length := hlength ▸ (List.getElem?_eq_some_iff.mp ht).1
    exact ⟨infos[k], by rw [regexAt, hinfos, Option.bind_some, List.getElem?_eq_getElem hk]⟩

/-- A match leaves something in every state of the lexer. -/
theorem Ready.exists_matchStep (h : lexer.Ready trees) {state : ℕ} {ts : List Node}
    (hts : trees[state]? = some ts) (stateStack : List ℕ) (first : Text) :
    ∃ rest control v, MatchStep lexer.caseInsensitive lexer.regexAt trees state stateStack first
        rest control ∧ IsLongest (Viable lexer.caseInsensitive ts) first v := by
  obtain ⟨dfa, _, hrecognizes⟩ := h.tables state ts hts
  obtain ⟨found, v, _, hfound, hv⟩ := doMatch_spec hrecognizes first []
  cases found with
  | none => exact ⟨_, _, v, .nothing hts hfound, hv⟩
  | some found =>
    obtain ⟨regex, hregex⟩ := h.exists_regexAt hts hfound
    cases hcallback : regex.callback with
    | none => exact ⟨_, _, v, .plain hts hfound hregex hcallback, hv⟩
    | some callback => exact ⟨_, _, v, .called hts hfound hregex hcallback rfl, hv⟩

/-- The call after a match. -/
def afterMatch (grammar : Text → Option Node) (lexer : Lexer) (fuel : ℕ) (rest token : Text)
    (control : LexerControl) : Except Failure (ℤ × Text × Text) × Lexer :=
  let lexer := lexer.withStates control.currentState control.stateStack
  if control.ignoreCurrentTokenSet then
    match fuel with
    | 0 => (.error .fuel, lexer)
    | fuel + 1 => lexer.nextToken grammar fuel rest []
  else
    (.ok (control.token, rest, token), lexer)

variable (grammar) in
theorem nextToken_eq (h : lexer.Ready trees) {ts : List Node} (hts : trees[lexer.state]? = some ts)
    {first rest v : Text} {control : LexerControl}
    (hstep : MatchStep lexer.caseInsensitive lexer.regexAt trees lexer.state lexer.stateStack first
      rest control) (hv : IsLongest (Viable lexer.caseInsensitive ts) first v) (fuel : ℕ)
    (token : Text) :
    lexer.nextToken grammar fuel first token =
      lexer.afterMatch grammar fuel rest (token ++ v) control := by
  have hmatch := fun found (hfound : Munch lexer.caseInsensitive ts first found) =>
    h.doMatch_eq hts hfound hv token
  rw [nextToken, if_pos h.compiledDfa]
  cases hstep with
  | nothing hts' hfound =>
    cases hts.symm.trans hts'
    simp only [hmatch _ hfound]
    rfl
  | plain hts' hfound hregex hcallback =>
    cases hts.symm.trans hts'
    rw [regexAt] at hregex
    simp only [hmatch _ hfound, hregex, hcallback]
    rfl
  | called hts' hfound hregex hcallback hcall =>
    cases hts.symm.trans hts'
    rw [regexAt] at hregex
    simp only [hmatch _ hfound, hregex, hcallback, hcall]
    rfl

/-- A call in a state the lexer does not have reads outside the tables. -/
theorem nextToken_access (h : lexer.Ready trees) (hts : trees[lexer.state]? = none) (fuel : ℕ)
    (first token : Text) :
    lexer.nextToken grammar fuel first token = (.error .access, lexer) := by
  have hdfa : lexer.dfa[lexer.state]? = none := by
    rw [List.getElem?_eq_none_iff] at hts ⊢
    rwa [h.length_dfa]
  rw [nextToken, if_pos h.compiledDfa]
  simp only [hdfa, Option.bind_none]

/-! ## All calls -/

theorem afterMatch_eq_ok {fuel : ℕ} {next token rest text : Text} {control : LexerControl} {id : ℤ}
    {lexer' : Lexer}
    (h : lexer.afterMatch grammar fuel next token control = (.ok (id, rest, text), lexer')) :
    control.ignoreCurrentTokenSet = false ∧ id = control.token ∧ rest = next ∧ text = token ∧
        lexer' = lexer.withStates control.currentState control.stateStack ∨
      control.ignoreCurrentTokenSet = true ∧ ∃ fuel' < fuel,
        (lexer.withStates control.currentState control.stateStack).nextToken grammar fuel' next [] =
          (.ok (id, rest, text), lexer') := by
  rw [afterMatch.eq_def] at h
  cases hignore : control.ignoreCurrentTokenSet with
  | false =>
    rw [hignore, if_neg Bool.false_ne_true] at h
    cases h
    exact .inl ⟨rfl, rfl, rfl, rfl, rfl⟩
  | true =>
    rw [hignore, if_pos rfl] at h
    cases fuel with
    | zero => cases h
    | succ fuel => exact .inr ⟨rfl, fuel, Nat.lt_succ_self fuel, h⟩

/-- What a call returns is said by `Lexes`, and nothing of the lexer changes but its states. -/
theorem lexes_of_nextToken (h : lexer.Ready trees) {fuel : ℕ} {first token rest text : Text}
    {id : ℤ} {lexer' : Lexer}
    (hreturn : lexer.nextToken grammar fuel first token = (.ok (id, rest, text), lexer')) :
    lexer' = lexer.withStates lexer'.state lexer'.stateStack ∧
      Lexes lexer.caseInsensitive lexer.regexAt trees lexer.state lexer.stateStack first token
        ⟨id, rest, text, lexer'.state, lexer'.stateStack⟩ := by
  induction fuel using Nat.strongRecOn generalizing lexer first token with
  | ind fuel ih =>
    cases hts : trees[lexer.state]? with
    | none =>
      rw [nextToken_access h hts] at hreturn
      cases hreturn
    | some ts =>
      obtain ⟨next, control, v, hstep, hv⟩ := h.exists_matchStep hts lexer.stateStack first
      rw [nextToken_eq grammar h hts hstep hv] at hreturn
      rcases afterMatch_eq_ok hreturn with ⟨hkeep, rfl, rfl, rfl, rfl⟩ |
        ⟨hignore, fuel', hlt, hnext⟩
      · exact ⟨rfl, .returned hstep hkeep hts hv⟩
      · obtain ⟨hlexer', hlexes⟩ := ih fuel' hlt (h.withStates _ _) hnext
        exact ⟨hlexer', .ignored hstep hignore hlexes⟩

variable (grammar) in
/-- What `Lexes` says is returned. -/
theorem nextToken_of_lexes (h : lexer.Ready trees) {state : ℕ} {stateStack : List ℕ}
    {first token : Text} {result : Reached}
    (hlexes : Lexes lexer.caseInsensitive lexer.regexAt trees state stateStack first token result) :
    ∃ fuel, (lexer.withStates state stateStack).nextToken grammar fuel first token =
      (.ok (result.id, result.rest, result.token),
        lexer.withStates result.state result.stateStack) := by
  induction hlexes with
  | returned hstep hkeep hts hv =>
    refine ⟨0, ?_⟩
    rw [nextToken_eq grammar (h.withStates _ _) hts hstep hv, afterMatch, hkeep,
      if_neg Bool.false_ne_true]
    rfl
  | @ignored state stateStack first token rest control result hstep hignore hlexes ih =>
    obtain ⟨fuel, hfuel⟩ := ih
    have hstate : ∃ ts, trees[state]? = some ts := by
      cases hstep with
      | nothing hts _ => exact ⟨_, hts⟩
      | plain hts _ _ _ => exact ⟨_, hts⟩
      | called hts _ _ _ _ => exact ⟨_, hts⟩
    obtain ⟨ts, hts⟩ := hstate
    obtain ⟨_, _, v, _, hv⟩ := h.exists_matchStep hts stateStack first
    refine ⟨fuel + 1, ?_⟩
    rw [nextToken_eq grammar (h.withStates _ _) hts hstep hv, afterMatch, hignore, if_pos rfl]
    exact hfuel

/-! ## Calls return -/

/-- The callback does not move back, and goes to states of the lexer only. -/
def Advances (n : ℕ) (callback : Callback) : Prop :=
  ∀ saved first id control, LexerControl.Within n control →
    (callback saved first id control).1.length ≤ first.length ∧
      (callback saved first id control).2.Within n

theorem MatchStep.advances {state : ℕ} {stateStack : List ℕ} {first rest : Text}
    {control : LexerControl}
    (hcallbacks : ∀ s k regex, lexer.regexAt s k = some regex → ∀ callback,
      regex.callback = some callback → Advances trees.length callback)
    (hwithin : ∀ id, LexerControl.Within trees.length ⟨id, false, state, stateStack⟩)
    (hstep : MatchStep lexer.caseInsensitive lexer.regexAt trees state stateStack first rest
      control) :
    rest.length ≤ first.length ∧ control.Within trees.length ∧
      (control.ignoreCurrentTokenSet = true → rest.length < first.length) := by
  cases hstep with
  | nothing hts hfound =>
    exact ⟨Nat.le_refl _, hwithin _, fun hignore => absurd hignore Bool.false_ne_true⟩
  | plain hts hfound hregex hcallback =>
    exact ⟨Nat.le_of_lt hfound.length_lt, hwithin _, fun _ => hfound.length_lt⟩
  | called hts hfound hregex hcallback hcall =>
    obtain ⟨hlength, hwithin'⟩ := hcallbacks _ _ _ hregex _ hcallback first _ _ _ (hwithin _)
    rw [hcall] at hlength hwithin'
    have hlt := Nat.lt_of_le_of_lt hlength hfound.length_lt
    exact ⟨Nat.le_of_lt hlt, hwithin', fun _ => hlt⟩

variable (grammar) in
/-- A call returns when the callbacks do not move back and stay in the states of the lexer. -/
theorem nextToken_returns (h : lexer.Ready trees)
    (hcallbacks : ∀ s k regex, lexer.regexAt s k = some regex → ∀ callback,
      regex.callback = some callback → Advances trees.length callback)
    (hwithin : ∀ id, LexerControl.Within trees.length ⟨id, false, lexer.state, lexer.stateStack⟩)
    {fuel : ℕ} {first : Text} (hfuel : first.length ≤ fuel) (token : Text) :
    ∃ id rest text state stateStack, lexer.nextToken grammar fuel first token =
        (.ok (id, rest, text), lexer.withStates state stateStack) ∧
      rest.length ≤ first.length ∧
      ∀ id, LexerControl.Within trees.length ⟨id, false, state, stateStack⟩ := by
  induction fuel using Nat.strongRecOn generalizing lexer first token with
  | ind fuel ih =>
    have hts := List.getElem?_eq_getElem (hwithin 0).1
    obtain ⟨next, control, v, hstep, hv⟩ := h.exists_matchStep hts lexer.stateStack first
    obtain ⟨hlength, hwithin', hlt⟩ := hstep.advances hcallbacks hwithin
    have hcontrol : ∀ id, LexerControl.Within trees.length
        ⟨id, false, control.currentState, control.stateStack⟩ := fun _ => hwithin'
    rw [nextToken_eq grammar h hts hstep hv, afterMatch.eq_def]
    cases hignore : control.ignoreCurrentTokenSet with
    | false =>
      rw [if_neg Bool.false_ne_true]
      exact ⟨_, _, _, _, _, rfl, hlength, hcontrol⟩
    | true =>
      have hnext := hlt hignore
      obtain ⟨fuel, rfl⟩ := Nat.exists_eq_succ_of_ne_zero (Nat.ne_of_gt
        (Nat.lt_of_lt_of_le (Nat.zero_lt_of_lt hnext) hfuel))
      obtain ⟨id, rest, text, state, stateStack, hreturn, hrest, hstates⟩ :=
        ih fuel (Nat.lt_succ_self fuel)
          (h.withStates control.currentState control.stateStack) hcallbacks hcontrol
          (Nat.le_of_lt_succ (Nat.lt_of_lt_of_le hnext hfuel)) []
      rw [if_pos rfl]
      exact ⟨id, rest, text, state, stateStack, hreturn, Nat.le_trans hrest hlength, hstates⟩

/-! ## The first call -/

/-- The expressions have trees, and either the tables are made or there are none. -/
structure Usable (grammar : Text → Option Node) (lexer : Lexer) (trees : List (List Node)) :
    Prop where
  parsed : lexer.Parsed grammar trees
  nonempty : trees ≠ []
  tables : lexer.Ready trees ∨ lexer.compiledDfa = false ∧ lexer.dfa = []

/-- Only the tables of a lexer differ. -/
structure SameExpressions (lexer lexer' : Lexer) : Prop where
  regexList : lexer'.regexList = lexer.regexList
  caseInsensitive : lexer'.caseInsensitive = lexer.caseInsensitive
  state : lexer'.state = lexer.state
  stateStack : lexer'.stateStack = lexer.stateStack

/-- The first call makes the tables, so every call is one of a lexer that has them. -/
theorem Usable.ready (h : lexer.Usable grammar trees) :
    ∃ lexer', lexer'.Ready trees ∧ SameExpressions lexer lexer' ∧
      lexer'.Parsed grammar trees ∧
      ∀ fuel first token, lexer.nextToken grammar fuel first token =
        lexer'.nextToken grammar fuel first token := by
  rcases h.tables with hready | ⟨hcompiled, hdfa⟩
  · exact ⟨lexer, hready, ⟨rfl, rfl, rfl, rfl⟩, h.parsed, fun _ _ _ => rfl⟩
  · obtain ⟨lexer', hcreate, hready, hlexer'⟩ := createDfa_ready h.parsed h.nonempty hdfa
    have hparsed : lexer'.Parsed grammar trees := by
      rw [hlexer']
      exact ⟨h.parsed.length_regexList, h.parsed.parses⟩
    have hsame : SameExpressions lexer lexer' := by
      rw [hlexer']
      exact ⟨rfl, rfl, rfl, rfl⟩
    refine ⟨lexer', hready, hsame, hparsed, fun fuel first token => ?_⟩
    conv_lhs => rw [nextToken, hcompiled, if_neg Bool.false_ne_true, hcreate]
    conv_rhs => rw [nextToken, if_pos hready.compiledDfa]

theorem SameExpressions.regexAt_eq {lexer' : Lexer} (h : SameExpressions lexer lexer') :
    lexer'.regexAt = lexer.regexAt := by
  funext state k
  rw [regexAt, regexAt, h.regexList]

/-- A call of a lexer returns what `Lexes` says, whether or not the tables are made yet. -/
theorem nextToken_iff_lexes (h : lexer.Usable grammar trees) (first token : Text)
    (result : Reached) :
    (∃ fuel lexer', lexer.nextToken grammar fuel first token =
        (.ok (result.id, result.rest, result.token), lexer') ∧
        lexer'.state = result.state ∧ lexer'.stateStack = result.stateStack) ↔
      Lexes lexer.caseInsensitive lexer.regexAt trees lexer.state lexer.stateStack first token
        result := by
  obtain ⟨ready, hready, hsame, _, hcalls⟩ := h.ready
  rw [← hsame.regexAt_eq, ← hsame.caseInsensitive, ← hsame.state, ← hsame.stateStack]
  constructor
  · rintro ⟨fuel, lexer', hreturn, hstate, hstack⟩
    rw [hcalls] at hreturn
    have hlexes := (lexes_of_nextToken hready hreturn).2
    rwa [hstate, hstack] at hlexes
  · intro hlexes
    obtain ⟨fuel, hreturn⟩ := nextToken_of_lexes grammar hready hlexes
    exact ⟨fuel, _, (hcalls fuel first token).trans hreturn, rfl, rfl⟩

/-- The grammar of single characters. -/
def charGrammar : Text → Option Node
  | [c] => some (.charNode c 0)
  | _ => none

/-- A callback that has the token ignored and goes on in another state. -/
def enterState (state : ℕ) : Callback := fun _ first _ control =>
  (first, (control.pushState state).ignoreCurrentToken)

/-- A new lexer of two states: behind `a` it goes on in the state in which it knows `b`. -/
def twoStates : Lexer :=
  { new 2 with regexList := [[⟨[ch 'a'], 257, some (enterState 1)⟩], [⟨[ch 'b'], 258, none⟩]] }

def twoTrees : List (List Node) := [[.charNode (ch 'a') 0], [.charNode (ch 'b') 0]]

theorem twoStates_usable : twoStates.Usable charGrammar twoTrees where
  parsed := ⟨rfl, .cons ⟨rfl, List.cons_ne_nil _ _, List.forall_mem_singleton.mpr rfl⟩
    (.cons ⟨rfl, List.cons_ne_nil _ _, List.forall_mem_singleton.mpr rfl⟩ .nil)⟩
  nonempty := List.cons_ne_nil _ _
  tables := .inr ⟨rfl, rfl⟩

theorem nextToken_iff_lexes_states :
    (∃ fuel lexer', twoStates.nextToken charGrammar fuel (str "ab") [] =
        (.ok (258, [], str "b"), lexer') ∧ lexer'.state = 1 ∧ lexer'.stateStack = [0]) ↔
      Lexes false twoStates.regexAt twoTrees 0 [] (str "ab") [] ⟨258, [], str "b", 1, [0]⟩ :=
  nextToken_iff_lexes twoStates_usable (str "ab") [] ⟨258, [], str "b", 1, [0]⟩

/-- Every call leaves a lexer for the next one, with the same expressions. -/
theorem Usable.next (h : lexer.Usable grammar trees) {fuel : ℕ} {first token rest text : Text}
    {id : ℤ} {lexer' : Lexer}
    (hreturn : lexer.nextToken grammar fuel first token = (.ok (id, rest, text), lexer')) :
    lexer'.Usable grammar trees ∧ lexer'.compiledDfa = true ∧
      lexer'.caseInsensitive = lexer.caseInsensitive ∧ lexer'.regexAt = lexer.regexAt := by
  obtain ⟨ready, hready, hsame, hparsed, hcalls⟩ := h.ready
  rw [hcalls] at hreturn
  obtain ⟨hlexer', _⟩ := lexes_of_nextToken hready hreturn
  rw [hlexer']
  refine ⟨⟨⟨hparsed.length_regexList, hparsed.parses⟩, h.nonempty,
    .inl (hready.withStates _ _)⟩, hready.compiledDfa, hsame.caseInsensitive, ?_⟩
  exact (hsame.regexAt_eq : ready.regexAt = lexer.regexAt)

/-- If the callbacks do not move back and stay in the states of the lexer, a call returns and the
next one will. -/
theorem usable_returns (h : lexer.Usable grammar trees)
    (hcallbacks : ∀ s k regex, lexer.regexAt s k = some regex → ∀ callback,
      regex.callback = some callback → Advances trees.length callback)
    (hwithin : ∀ id, LexerControl.Within trees.length ⟨id, false, lexer.state, lexer.stateStack⟩)
    {fuel : ℕ} {first : Text} (hfuel : first.length ≤ fuel) (token : Text) :
    ∃ id rest text lexer', lexer.nextToken grammar fuel first token =
        (.ok (id, rest, text), lexer') ∧
      rest.length ≤ first.length ∧ lexer'.Usable grammar trees ∧
      lexer'.regexAt = lexer.regexAt ∧
      ∀ id, LexerControl.Within trees.length ⟨id, false, lexer'.state, lexer'.stateStack⟩ := by
  obtain ⟨ready, hready, hsame, _, hcalls⟩ := h.ready
  rw [← hsame.state, ← hsame.stateStack] at hwithin
  rw [← hsame.regexAt_eq] at hcallbacks
  obtain ⟨id, rest, text, state, stateStack, hreturn, hlength, hwithin'⟩ :=
    nextToken_returns grammar hready hcallbacks hwithin hfuel token
  rw [← hcalls] at hreturn
  obtain ⟨husable, _, _, hregexAt⟩ := h.next hreturn
  exact ⟨id, rest, text, _, hreturn, hlength, husable, hregexAt, hwithin'⟩

/-- The grammar in which every text is one expression. -/
def oneGrammar (node : Node) : Text → Option Node := fun _ => some node

/-- A new lexer of one expression, which has a callback or none. -/
def oneLexer (callback : Option Callback) : Lexer :=
  { new 1 with regexList := [[⟨[ch 'a'], 257, callback⟩]] }

theorem oneLexer_usable {node : Node} (hnode : populated node = true)
    (callback : Option Callback) : (oneLexer callback).Usable (oneGrammar node) [[node]] where
  parsed := ⟨rfl, .cons ⟨rfl, List.cons_ne_nil _ _, List.forall_mem_singleton.mpr hnode⟩ .nil⟩
  nonempty := List.cons_ne_nil _ _
  tables := .inr ⟨rfl, rfl⟩

/-- A callback that has every token ignored. -/
def skipToken : Callback := fun _ first _ control => (first, control.ignoreCurrentToken)

theorem usable_returns_skipToken :
    ∃ id rest text lexer',
      (oneLexer (some skipToken)).nextToken (oneGrammar (.charNode (ch 'a') 0)) 2 (str "aa") [] =
        (.ok (id, rest, text), lexer') ∧
      rest.length ≤ 2 ∧ lexer'.Usable (oneGrammar (.charNode (ch 'a') 0)) [[.charNode (ch 'a') 0]] ∧
      lexer'.regexAt = (oneLexer (some skipToken)).regexAt ∧
      ∀ id, LexerControl.Within 1 ⟨id, false, lexer'.state, lexer'.stateStack⟩ := by
  have hcallbacks : ∀ s k regex, (oneLexer (some skipToken)).regexAt s k = some regex →
      ∀ callback, regex.callback = some callback → Advances 1 callback := by
    intro s k regex hregex callback hcallback
    have hadvances : Advances 1 skipToken := fun _ _ _ _ hwithin => ⟨Nat.le_refl _, hwithin⟩
    match s, k with
    | 0, 0 =>
      cases hregex
      cases hcallback
      exact hadvances
    | 0, _ + 1 => cases hregex
    | _ + 1, _ => cases hregex
  exact usable_returns (oneLexer_usable rfl (some skipToken)) hcallbacks
    (fun _ => ⟨Nat.one_pos, fun _ h => absurd h List.not_mem_nil⟩) (Nat.le_refl 2) []

/-- A match whose token is not ignored is what the call returns. -/
theorem Usable.returned (h : lexer.Usable grammar trees) {ts : List Node}
    (hts : trees[lexer.state]? = some ts) {first rest v : Text} {control : LexerControl}
    (hstep : MatchStep lexer.caseInsensitive lexer.regexAt trees lexer.state lexer.stateStack
      first rest control) (hkeep : control.ignoreCurrentTokenSet = false)
    (hv : IsLongest (Viable lexer.caseInsensitive ts) first v) (fuel : ℕ) (token : Text) :
    ∃ lexer', lexer.nextToken grammar fuel first token =
        (.ok (control.token, rest, token ++ v), lexer') ∧
      lexer'.state = control.currentState ∧ lexer'.stateStack = control.stateStack := by
  obtain ⟨ready, hready, hsame, _, hcalls⟩ := h.ready
  rw [← hsame.regexAt_eq, ← hsame.caseInsensitive, ← hsame.state, ← hsame.stateStack] at hstep
  rw [← hsame.caseInsensitive] at hv
  rw [← hsame.state] at hts
  refine ⟨ready.withStates control.currentState control.stateStack, ?_, rfl, rfl⟩
  rw [hcalls, nextToken_eq grammar hready hts hstep hv, afterMatch.eq_def, hkeep,
    if_neg Bool.false_ne_true]

end Lexer

end P4LS.Slex
