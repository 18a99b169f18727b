import P4LS.Slex.Grammar
import P4LS.Slex.TokenStream

/-!
# The lexer that all functors share

The lexer is a static member of `slex_functor`, so the functors of a file and of the files it
includes call one lexer in turn.  The first functor makes its tables.  Whatever the order in which
functors are made and called, each gives the tokens of its own text.
-/

namespace P4LS.Slex

open Bytes

/-- The shared lexer, the file of its tables and the functors with their languages. -/
structure Functors (Position : Type) where
  lexer : Lexer
  file : Option Bytes
  functors : List (LanguageSupport × SlexFunctor Position)

/-- The constructor of a functor, with the memory there is for it, and a call of the functor of an
index. -/
inductive Call (Position : Type) where
  | construct (memory : Memory) (text : Text) (position : Position) (language : LanguageSupport)
  | get (i : ℕ)

section

variable {Position : Type} (wave : Wave Position) (ids : TokenIds) (grammar : Text → Option Node)
  (data : InitData) (compilationTime : ℤ) (writable : Bool)

/-- A result that a call gives, with the index of its functor. -/
abbrev Given (Position : Type) := ℕ × Except LexingError (P4lexToken Position)

def Functors.call (state : Functors Position) :
    Call Position → List (Given Position) × Functors Position
  | .construct memory text position language =>
    match state.lexer.initLexer memory grammar data language false compilationTime writable
      state.file with
    | (.error _, lexer, file) => ([], { state with lexer := lexer, file := file })
    | (.ok (), lexer, file) =>
      ([], ⟨lexer, file, state.functors ++ [(language, ⟨text, position, false⟩)]⟩)
  | .get i =>
    match state.functors[i]? with
    | none => ([], state)
    | some (language, functor) =>
      let (result, functor, lexer) :=
        functor.get wave ids language grammar functor.first.length state.lexer
      ([(i, result)], ⟨lexer, state.file, state.functors.set i (language, functor)⟩)

/-- The results of some calls, one after another. -/
def Functors.calls (state : Functors Position) : List (Call Position) → List (Given Position)
  | [] => []
  | call :: more =>
    let next := state.call wave ids grammar data compilationTime writable call
    next.1 ++ next.2.calls more

end

/-- The results of one functor. -/
def resultsOf {Position : Type} (i : ℕ) (given : List (Given Position)) :
    List (Except LexingError (P4lexToken Position)) :=
  given.filterMap fun p => if p.1 = i then some p.2 else none

def Call.isGet {Position : Type} (i : ℕ) : Call Position → Bool
  | .construct _ _ _ _ => false
  | .get j => j == i

def Call.isConstruct {Position : Type} : Call Position → Bool
  | .construct _ _ _ _ => true
  | .get _ => false

/-- How often a functor is called. -/
def callsOf {Position : Type} (i : ℕ) (calls : List (Call Position)) : ℕ :=
  calls.countP (Call.isGet i)

section

variable {Position : Type} {wave : Wave Position} {ids : TokenIds} {grammar : Text → Option Node}
  {data : InitData} {compilationTime : ℤ} {writable : Bool} {trees : List (List Node)}
  {ts : List Node}

variable (wave ids grammar trees ts) in
/-- The lexer is made, and each functor has results to come. -/
structure Functors.Made (caseInsensitive : Bool) (regexAt : ℕ → Option RegexInfo)
    (results : ℕ → List (Except LexingError (P4lexToken Position))) (state : Functors Position) :
    Prop where
  compiledDfa : state.lexer.compiledDfa = true
  plain : state.lexer.Plain grammar ids trees ts
  caseInsensitive_eq : state.lexer.caseInsensitive = caseInsensitive
  regexAt_eq : state.lexer.regexAt state.lexer.state = regexAt
  expects : ∀ i language functor, state.functors[i]? = some (language, functor) →
    Expects wave ids language ts caseInsensitive regexAt (results i) functor

variable {caseInsensitive : Bool} {regexAt : ℕ → Option RegexInfo}
  {results : ℕ → List (Except LexingError (P4lexToken Position))} {state : Functors Position}

variable (data compilationTime writable)

theorem Functors.calls_cons {call : Call Position} {given : List (Given Position)}
    {state' : Functors Position}
    (h : state.call wave ids grammar data compilationTime writable call = (given, state'))
    (calls : List (Call Position)) :
    state.calls wave ids grammar data compilationTime writable (call :: calls) =
      given ++ state'.calls wave ids grammar data compilationTime writable calls := by
  rw [Functors.calls, h]

/-- A functor that is made when the lexer has its tables finds them, and has all of its text to
come. -/
theorem Functors.Made.construct
    (h : state.Made wave ids grammar trees ts caseInsensitive regexAt results)
    {text : Text} {ps : List Piece} {last : Text}
    (hpieces : Pieces caseInsensitive regexAt ts text ps last) (memory : Memory)
    (position : Position) (language : LanguageSupport) :
    ∃ state', state.call wave ids grammar data compilationTime writable
        (.construct memory text position language) = ([], state') ∧
      state'.functors.length = state.functors.length + 1 ∧
      state'.Made wave ids grammar trees ts caseInsensitive regexAt
        (Function.update results state.functors.length
          (stream wave ids language position text ps)) := by
  have hinit : state.lexer.initLexer memory grammar data language false compilationTime writable
      state.file = (.ok (), state.lexer, state.file) :=
    Lexer.initLexer_compiled h.compiledDfa _ _ _ _ _ _ _ _
  refine ⟨⟨state.lexer, state.file, state.functors ++ [(language, ⟨text, position, false⟩)]⟩,
    ?_, ?_, h.compiledDfa, h.plain, h.caseInsensitive_eq, h.regexAt_eq, ?_⟩
  · rw [Functors.call, hinit]
  · rw [List.length_append, List.length_singleton]
  · intro i language' functor hi
    rcases Nat.lt_trichotomy i state.functors.length with hlt | heq | hgt
    · rw [List.getElem?_append_left hlt] at hi
      rw [Function.update_of_ne (Nat.ne_of_lt hlt)]
      exact h.expects i language' functor hi
    · subst heq
      rw [List.getElem?_append_right (Nat.le_refl _), Nat.sub_self] at hi
      cases hi
      rw [Function.update_self]
      exact @Expects.pieces _ wave ids language ts caseInsensitive regexAt
        ⟨text, position, false⟩ ps last rfl hpieces
    · rw [List.getElem?_eq_none (by
        rw [List.length_append, List.length_singleton]
        exact hgt)] at hi
      cases hi

/-- A call gives the next result of its functor, and the other functors are as they were. -/
theorem Functors.Made.get
    (h : state.Made wave ids grammar trees ts caseInsensitive regexAt results) {i : ℕ}
    (hi : i < state.functors.length) :
    ∃ state', state.call wave ids grammar data compilationTime writable (.get i) =
        ([(i, (results i).headD (endOfInput ids))], state') ∧
      state'.functors.length = state.functors.length ∧
      state'.Made wave ids grammar trees ts caseInsensitive regexAt
        (Function.update results i (results i).tail) := by
  rcases hfunctor : state.functors[i] with ⟨language, functor⟩
  have hat : state.functors[i]? = some (language, functor) := by
    rw [List.getElem?_eq_getElem hi, hfunctor]
  have hexpects := h.expects i language functor hat
  rw [← h.caseInsensitive_eq, ← h.regexAt_eq] at hexpects
  obtain ⟨functor', lexer', hget, hplain, hrules, hexpects', _⟩ :=
    get_of_expects h.plain hexpects (Nat.le_refl _)
  rw [h.caseInsensitive_eq, h.regexAt_eq] at hexpects'
  refine ⟨⟨lexer', state.file, state.functors.set i (language, functor')⟩, ?_, List.length_set,
    hrules.compiledDfa h.compiledDfa, hplain, hrules.caseInsensitive.trans h.caseInsensitive_eq,
    hrules.regexAt.trans h.regexAt_eq, ?_⟩
  · rw [Functors.call, hat]
    simp only [hget]
  · intro j language' functor'' hj
    rw [List.getElem?_set] at hj
    by_cases hij : i = j
    · subst hij
      rw [if_pos rfl, if_pos hi] at hj
      cases hj
      rw [Function.update_self]
      exact hexpects'
    · rw [if_neg hij] at hj
      rw [Function.update_of_ne (Ne.symm hij)]
      exact h.expects j language' functor'' hj

variable (wave ids grammar) in
theorem Functors.get_none {i : ℕ} (hi : state.functors.length ≤ i) :
    state.call wave ids grammar data compilationTime writable (.get i) = ([], state) := by
  rw [Functors.call, List.getElem?_eq_none hi]

omit data compilationTime writable in
theorem resultsOf_append (i : ℕ) (given given' : List (Given Position)) :
    resultsOf i (given ++ given') = resultsOf i given ++ resultsOf i given' :=
  List.filterMap_append

/-- In whatever order functors are made and called, a functor gives its own results. -/
theorem resultsOf_calls
    (h : state.Made wave ids grammar trees ts caseInsensitive regexAt results)
    (calls : List (Call Position)) {i : ℕ} (hi : i < state.functors.length) :
    resultsOf i (state.calls wave ids grammar data compilationTime writable calls) =
      firstResults ids (results i) (callsOf i calls) := by
  induction calls generalizing state results with
  | nil => exact List.take_zero.symm
  | cons call calls ih =>
    cases call with
    | construct memory text position language =>
      obtain ⟨ps, last, hpieces⟩ := h.plain.exists_pieces text
      rw [h.caseInsensitive_eq, h.regexAt_eq] at hpieces
      obtain ⟨state', hcall, hlength, hmade⟩ :=
        h.construct data compilationTime writable hpieces memory position language
      rw [Functors.calls_cons _ _ _ hcall, List.nil_append, ih hmade (by omega)]
      have hother : ¬Call.isGet i (Call.construct memory text position language) = true :=
        Bool.false_ne_true
      rw [Function.update_of_ne (Nat.ne_of_lt hi), callsOf, callsOf,
        List.countP_cons_of_neg hother]
    | get j =>
      by_cases hj : j < state.functors.length
      · obtain ⟨state', hcall, hlength, hmade⟩ := h.get data compilationTime writable hj
        rw [Functors.calls_cons _ _ _ hcall, resultsOf_append, ih hmade (hlength ▸ hi)]
        by_cases hij : j = i
        · subst hij
          have hself : Call.isGet j (Call.get j : Call Position) = true := beq_self_eq_true j
          rw [Function.update_self, callsOf, callsOf, List.countP_cons_of_pos hself,
            firstResults_succ, resultsOf, List.filterMap_cons, List.filterMap_nil, if_pos rfl]
          rfl
        · have hother : ¬Call.isGet i (Call.get j : Call Position) = true := fun h =>
            hij (eq_of_beq h)
          rw [Function.update_of_ne (Ne.symm hij), callsOf, callsOf,
            List.countP_cons_of_neg hother, resultsOf,
            List.filterMap_cons, List.filterMap_nil, if_neg hij]
          rfl
      · have hnone := Functors.get_none wave ids grammar data compilationTime writable
          (Nat.le_of_not_lt hj)
        rw [Functors.calls_cons _ _ _ hnone, List.nil_append, ih h hi]
        have hother : ¬Call.isGet i (Call.get j : Call Position) = true := fun h =>
          hj (eq_of_beq h ▸ hi)
        rw [callsOf, callsOf, List.countP_cons_of_neg hother]

/-- The state behind some calls. -/
def Functors.after (wave : Wave Position) (ids : TokenIds) (grammar : Text → Option Node)
    (state : Functors Position) (calls : List (Call Position)) : Functors Position :=
  calls.foldl (fun state call =>
    (state.call wave ids grammar data compilationTime writable call).2) state

theorem Functors.calls_append (state : Functors Position) (calls more : List (Call Position)) :
    state.calls wave ids grammar data compilationTime writable (calls ++ more) =
      state.calls wave ids grammar data compilationTime writable calls ++
        (state.after data compilationTime writable wave ids grammar calls).calls wave ids grammar
          data compilationTime writable more := by
  induction calls generalizing state with
  | nil => rfl
  | cons call calls ih =>
    rw [List.cons_append, Functors.calls, Functors.calls, ih, List.append_assoc]
    rfl

/-- The functors that some calls make are behind the others, and until then they give nothing. -/
theorem Functors.Made.after
    (h : state.Made wave ids grammar trees ts caseInsensitive regexAt results)
    (calls : List (Call Position)) :
    (state.after data compilationTime writable wave ids grammar calls).functors.length =
        state.functors.length + calls.countP Call.isConstruct ∧
      (∃ results', (state.after data compilationTime writable wave ids grammar calls).Made wave ids
        grammar trees ts caseInsensitive regexAt results') ∧
      resultsOf (state.functors.length + calls.countP Call.isConstruct)
        (state.calls wave ids grammar data compilationTime writable calls) = [] := by
  induction calls generalizing state results with
  | nil => exact ⟨rfl, ⟨results, h⟩, rfl⟩
  | cons call calls ih =>
    cases call with
    | construct memory text position language =>
      obtain ⟨ps, last, hpieces⟩ := h.plain.exists_pieces text
      rw [h.caseInsensitive_eq, h.regexAt_eq] at hpieces
      obtain ⟨state', hcall, hlength, hmade⟩ :=
        h.construct data compilationTime writable hpieces memory position language
      have hcount :
          (Call.construct memory text position language :: calls).countP Call.isConstruct =
            calls.countP Call.isConstruct + 1 := List.countP_cons_of_pos rfl
      have hnext := ih hmade
      rw [hlength, Nat.add_right_comm, Nat.add_assoc, ← hcount] at hnext
      rw [Functors.after, List.foldl_cons, Functors.calls_cons _ _ _ hcall, hcall]
      exact hnext
    | get i =>
      have hcount : (Call.get i :: calls).countP Call.isConstruct =
          calls.countP Call.isConstruct := List.countP_cons_of_neg Bool.false_ne_true
      rw [Functors.after, List.foldl_cons, hcount]
      by_cases hi : i < state.functors.length
      · obtain ⟨state', hcall, hlength, hmade⟩ := h.get data compilationTime writable hi
        have hnext := ih hmade
        rw [hlength] at hnext
        rw [Functors.calls_cons _ _ _ hcall, hcall]
        refine ⟨hnext.1, hnext.2.1, ?_⟩
        rw [resultsOf_append, hnext.2.2, resultsOf, List.filterMap_cons, List.filterMap_nil,
          if_neg (by omega)]
        rfl
      · have hnone := Functors.get_none wave ids grammar data compilationTime writable
          (Nat.le_of_not_lt hi)
        rw [Functors.calls_cons _ _ _ hnone, hnone]
        exact ih h

/-- A functor gives the results of its own text, whatever is made and called before and after it. -/
theorem resultsOf_constructed
    (h : state.Made wave ids grammar trees ts caseInsensitive regexAt results) {text : Text}
    {ps : List Piece} {last : Text} (hpieces : Pieces caseInsensitive regexAt ts text ps last)
    (memory : Memory) (position : Position) (language : LanguageSupport)
    (before after : List (Call Position)) :
    resultsOf (state.functors.length + before.countP Call.isConstruct)
        (state.calls wave ids grammar data compilationTime writable
          (before ++ .construct memory text position language :: after)) =
      firstResults ids (stream wave ids language position text ps)
        (callsOf (state.functors.length + before.countP Call.isConstruct) after) := by
  obtain ⟨hlength, ⟨results', hmade⟩, hnone⟩ := h.after data compilationTime writable before
  obtain ⟨state', hcall, hlength', hmade'⟩ :=
    hmade.construct data compilationTime writable hpieces memory position language
  rw [Functors.calls_append, resultsOf_append, hnone, List.nil_append,
    Functors.calls_cons _ _ _ hcall, List.nil_append, ← hlength,
    resultsOf_calls data compilationTime writable hmade' after (by omega), Function.update_self]

variable (grammar) in
/-- The lexer has no tables and an expression that the grammar refuses, no load takes the file, and
there is no functor. -/
structure Functors.Spoiled (state : Functors Position) : Prop where
  compiledDfa : state.lexer.compiledDfa = false
  numStates : state.lexer.numStates = 1
  file : Lexer.Untaken compilationTime state.file
  functors : state.functors = []
  regexes : ∃ regexes, state.lexer = state.lexer.withRegexes regexes ∧
    ∃ regex ∈ regexes, grammar regex.str = none

variable (wave ids) in
/-- A functor is not made if one of the expressions registered, or of those of its own language, is
refused. -/
theorem Functors.construct_bad (state : Functors Position) {language : LanguageSupport}
    (hzero : ∀ entry ∈ data.registered language, entry.lexerstate = 0)
    (hcompiled : state.lexer.compiledDfa = false) (hstates : state.lexer.numStates = 1)
    (hfile : Lexer.Untaken compilationTime state.file) (hfunctors : state.functors = [])
    {regexes : List RegexInfo} (hlexer : state.lexer = state.lexer.withRegexes regexes)
    {regex : RegexInfo}
    (hregex : regex ∈ regexes ++ (data.registered language).map LexerData.info)
    (hbad : grammar regex.str = none) (memory : Memory) (text : Text) (position : Position) :
    ∃ state', state.call wave ids grammar data compilationTime writable
        (.construct memory text position language) = ([], state') ∧
      state'.Spoiled grammar compilationTime := by
  obtain ⟨failure, lexer', hinit, hcompiled', hstates', hlexer'⟩ :=
    Lexer.initLexer_bad hzero hcompiled hstates hregex hbad hfile memory writable
  rw [← hlexer] at hinit
  refine ⟨{ state with lexer := lexer' }, ?_, hcompiled', hstates', hfile, hfunctors, _, hlexer',
    regex, hregex, hbad⟩
  rw [Functors.call, hinit]

variable (wave ids) in
/-- Registering another language does not remove the expression. -/
theorem Functors.Spoiled.call (h : state.Spoiled grammar compilationTime)
    (hzero : ∀ language, ∀ entry ∈ data.registered language, entry.lexerstate = 0)
    (call : Call Position) :
    ∃ state', state.call wave ids grammar data compilationTime writable call = ([], state') ∧
      state'.Spoiled grammar compilationTime := by
  cases call with
  | construct memory text position language =>
    obtain ⟨regexes, hlexer, regex, hregex, hbad⟩ := h.regexes
    exact Functors.construct_bad wave ids data compilationTime writable state (hzero language)
      h.compiledDfa h.numStates h.file h.functors hlexer (List.mem_append_left _ hregex) hbad memory
      text position
  | get i =>
    refine ⟨state, Functors.get_none wave ids grammar data compilationTime writable ?_, h⟩
    rw [h.functors]
    exact Nat.zero_le i

theorem Functors.Spoiled.calls (h : state.Spoiled grammar compilationTime)
    (hzero : ∀ language, ∀ entry ∈ data.registered language, entry.lexerstate = 0)
    (calls : List (Call Position)) :
    state.calls wave ids grammar data compilationTime writable calls = [] := by
  induction calls generalizing state with
  | nil => rfl
  | cons call calls ih =>
    obtain ⟨state', hcall, h'⟩ := h.call wave ids data compilationTime writable hzero call
    rw [Functors.calls_cons _ _ _ hcall, List.nil_append]
    exact ih h'

/-- If no load takes the file and the grammar refuses an expression of the first language, no
functor of any language is made any more. -/
theorem calls_of_bad (hzero : ∀ language, ∀ entry ∈ data.registered language, entry.lexerstate = 0)
    {language : LanguageSupport} {entry : LexerData} (hentry : entry ∈ data.registered language)
    (hbad : grammar entry.tokenregex = none) {file : Option Bytes}
    (hfile : Lexer.Untaken compilationTime file) (memory : Memory) (text : Text)
    (position : Position) (calls : List (Call Position)) :
    (⟨Lexer.new 1, file, []⟩ : Functors Position).calls wave ids grammar data compilationTime
      writable (.construct memory text position language :: calls) = [] := by
  have hregex : entry.info ∈ [] ++ (data.registered language).map LexerData.info :=
    List.mem_append_right [] (List.mem_map_of_mem hentry)
  obtain ⟨state', hcall, hspoiled⟩ := Functors.construct_bad wave ids data compilationTime writable
    ⟨Lexer.new 1, file, []⟩ (hzero language) rfl rfl hfile rfl rfl hregex hbad memory text position
  rw [Functors.calls_cons _ _ _ hcall, List.nil_append]
  exact hspoiled.calls data compilationTime writable hzero calls

end

/-- Room for vectors of up to 2^60 elements. -/
def ampleMemory : Memory where
  maxSize _ := 2 ^ 60
  fails _ _ count := if 2 ^ 60 < count then some .lengthError else none
  maxSize_lt _ := by decide
  lengthError_iff _ _ _ := by
    rw [Option.ite_none_right_eq_some]
    exact and_iff_left rfl

/-- The expression `a`, and an open parenthesis that is not an expression. -/
def unbalancedData : InitData := ⟨[⟨257, str "a", none, 0⟩, ⟨258, str "(", none, 0⟩], [], [], []⟩

/-- A file of the same build whose first count was overwritten. -/
def overwrittenFile : Bytes :=
  Lexer.writeHeader ((Lexer.new 1).header 0) ++
    (BinaryFormat.leBytes 8 (2 ^ 64 - 1) ++ str "tables")

theorem calls_of_bad_unbalanced :
    (⟨Lexer.new 1, some overwrittenFile, []⟩ : Functors ℕ).calls countingWave fewIds
      plainSpirit.grammar unbalancedData 0 true
      [.construct ampleMemory (str "a") 0 c99Language, .get 0] = [] := by
  have hregistered : ∀ language, unbalancedData.registered language =
      [⟨257, str "a", none, 0⟩, ⟨258, str "(", none, 0⟩] := by
    rintro ⟨preferPpNumbers, c99, cpp0x, _, _, _, _⟩
    cases preferPpNumbers <;> cases c99 <;> cases cpp0x <;> rfl
  have hzero : ∀ language, ∀ entry ∈ unbalancedData.registered language,
      entry.lexerstate = 0 := by
    intro language
    rw [hregistered]
    exact List.forall_mem_cons.mpr ⟨rfl, List.forall_mem_singleton.mpr rfl⟩
  have hentry : ⟨258, str "(", none, 0⟩ ∈ unbalancedData.registered c99Language := by
    rw [hregistered]
    exact List.mem_cons_of_mem _ (List.mem_singleton_self _)
  have hfile : Lexer.Untaken 0 (some overwrittenFile) := by
    intro s hs memory lexer lexer' hload
    cases hs
    have hnew : (Lexer.new 1).Storable :=
      ⟨show 1 < 2 ^ 32 by decide, show 0 < 256 ^ 8 by decide, List.forall_mem_nil _⟩
    have haccepted : Lexer.Accepted 0 ((Lexer.new 1).header 0) := by decide
    have hthrows := Lexer.load_lengthError memory lexer (hnew.header 0) haccepted
      (show 2 ^ 63 ≤ 2 ^ 64 - 1 by decide) (show 2 ^ 64 - 1 < 256 ^ 8 by decide) (str "tables")
    rw [overwrittenFile, hthrows] at hload
    cases hload
  exact calls_of_bad _ _ _ hzero hentry rfl hfile _ _ _ _

end P4LS.Slex
