import P4LS.Library.Outcome
import P4LS.Slex.NextToken
import P4LS.Slex.Tables

/-!
# The lexer of the preprocessor

All functors share one lexer.  `init_lexer` registers the expressions of the language and takes the
tables from the file that an earlier process of the same build saved, or makes and saves them.  A
file that was cut short is not taken, so in each case the lexer has the tables that it would make.
-/

namespace P4LS.Slex

open Bytes Istream

/-- The options of the language that are asked for. -/
structure LanguageSupport where
  preferPpNumbers : Bool
  c99 : Bool
  cpp0x : Bool
  emitContnewlines : Bool
  noCharacterValidation : Bool
  convertTrigraphs : Bool
  longLong : Bool

structure LexerData where
  tokenid : ℤ
  tokenregex : Text
  tokencb : Option Callback
  lexerstate : ℕ

/-- The tables of the token definitions, each up to an entry with the id 0. -/
structure InitData where
  initData : List LexerData
  initDataCpp : List LexerData
  initDataPpNumber : List LexerData
  initDataCpp0x : List LexerData

/-- The entries before the last. -/
def LexerData.entries (data : List LexerData) : List LexerData :=
  data.takeWhile fun entry => entry.tokenid != 0

def LexerData.info (entry : LexerData) : RegexInfo :=
  ⟨entry.tokenregex, entry.tokenid, entry.tokencb⟩

namespace Lexer

/-- One loop of `init_dfa`. -/
def registerData (data : List LexerData) (lexer : Lexer) : Except Failure Lexer :=
  (LexerData.entries data).foldlM
    (fun lexer entry => lexer.registerRegex entry.info entry.lexerstate) lexer

/-- The entries of a table that only some languages have. -/
def registerIf (condition : Bool) (data : List LexerData) (lexer : Lexer) : Except Failure Lexer :=
  if condition then registerData data lexer else .ok lexer

def initDfa (data : InitData) (language : LanguageSupport) (lexer : Lexer) : Except Failure Lexer :=
  if lexer.compiledDfa then .ok lexer
  else do
    let lexer ← registerIf language.preferPpNumbers data.initDataPpNumber lexer
    let lexer ← registerIf (!language.c99) data.initDataCpp lexer
    let lexer ← registerIf language.cpp0x data.initDataCpp0x lexer
    registerData data.initData lexer

/-- `init_lexer`, with the file of the saved tables, if there is one, before and after.  If it is
not `writable` the tables are not saved, and `memory` is what there is for the vectors of a file. -/
def initLexer (memory : Memory) (grammar : Text → Option Node) (data : InitData)
    (language : LanguageSupport) (forceReinit : Bool) (compilationTime : ℤ) (writable : Bool)
    (file : Option Bytes) (lexer : Lexer) : Except Failure Unit × Lexer × Option Bytes :=
  if lexer.compiledDfa then (.ok (), lexer, file)
  else
    match lexer.initDfa data language with
    | .error failure => (.error failure, lexer, file)
    | .ok lexer =>
      match if forceReinit then .ok none
        else file.elim (.ok none) fun bytes =>
          lexer.load memory (ofBytes bytes) compilationTime with
      | .error failure => (.error (.alloc failure), lexer, file)
      | .ok (some lexer) => (.ok (), lexer, file)
      | .ok none =>
        match lexer.createDfa grammar with
        | (.error failure, lexer) => (.error failure, lexer, file)
        | (.ok (), lexer) =>
          (.ok (), lexer, if writable then some (lexer.save compilationTime) else file)

end Lexer

def LexerData.entriesIf (condition : Bool) (data : List LexerData) : List LexerData :=
  if condition then LexerData.entries data else []

/-- The entries that are registered for a language, in their order. -/
def InitData.registered (data : InitData) (language : LanguageSupport) : List LexerData :=
  LexerData.entriesIf language.preferPpNumbers data.initDataPpNumber ++
    (LexerData.entriesIf (!language.c99) data.initDataCpp ++
      (LexerData.entriesIf language.cpp0x data.initDataCpp0x ++ LexerData.entries data.initData))

namespace Lexer

/-- A lexer of one state with its expressions. -/
def withRegexes (lexer : Lexer) (regexes : List RegexInfo) : Lexer :=
  { lexer with regexList := [regexes] }

theorem foldlM_registerRegex {entries : List LexerData}
    (h : ∀ entry ∈ entries, entry.lexerstate = 0) (lexer : Lexer) (regexes : List RegexInfo) :
    entries.foldlM (fun lexer entry => lexer.registerRegex entry.info entry.lexerstate)
        (lexer.withRegexes regexes) =
      Except.ok (lexer.withRegexes (regexes ++ entries.map LexerData.info)) := by
  induction entries generalizing regexes with
  | nil =>
    rw [List.map_nil, List.append_nil]
    rfl
  | cons entry entries ih =>
    obtain ⟨hentry, hentries⟩ := List.forall_mem_cons.mp h
    have hregister : (lexer.withRegexes regexes).registerRegex entry.info entry.lexerstate =
        .ok (lexer.withRegexes (regexes ++ [entry.info])) := by
      rw [registerRegex, hentry, if_neg (Nat.not_lt_zero _)]
      rfl
    rw [List.foldlM_cons, hregister]
    refine (ih hentries (regexes ++ [entry.info])).trans ?_
    rw [List.append_assoc, List.singleton_append, List.map_cons]

theorem registerData_withRegexes {data : List LexerData}
    (h : ∀ entry ∈ LexerData.entries data, entry.lexerstate = 0) (lexer : Lexer)
    (regexes : List RegexInfo) :
    registerData data (lexer.withRegexes regexes) =
      .ok (lexer.withRegexes (regexes ++ (LexerData.entries data).map LexerData.info)) :=
  foldlM_registerRegex h lexer regexes

theorem registerIf_withRegexes {condition : Bool} {data : List LexerData}
    (h : ∀ entry ∈ LexerData.entriesIf condition data, entry.lexerstate = 0) (lexer : Lexer)
    (regexes : List RegexInfo) :
    registerIf condition data (lexer.withRegexes regexes) = .ok (lexer.withRegexes
      (regexes ++ (LexerData.entriesIf condition data).map LexerData.info)) := by
  cases condition with
  | true => exact registerData_withRegexes h lexer regexes
  | false =>
    rw [registerIf, LexerData.entriesIf, if_neg Bool.false_ne_true, if_neg Bool.false_ne_true,
      List.map_nil, List.append_nil]

/-- The expressions of a language are registered behind those that are there, as long as there are
no tables. -/
theorem initDfa_withRegexes {data : InitData} {language : LanguageSupport}
    (h : ∀ entry ∈ data.registered language, entry.lexerstate = 0) {lexer : Lexer}
    (hcompiled : lexer.compiledDfa = false) (regexes : List RegexInfo) :
    (lexer.withRegexes regexes).initDfa data language =
      .ok (lexer.withRegexes (regexes ++ (data.registered language).map LexerData.info)) := by
  simp only [InitData.registered, List.forall_mem_append] at h
  obtain ⟨hpp, hcpp, hcpp0x, hcommon⟩ := h
  have hnot : ¬(lexer.withRegexes regexes).compiledDfa = true := hcompiled ▸ Bool.false_ne_true
  rw [initDfa, if_neg hnot]
  refine Except.bind_eq_ok.mpr ⟨_, registerIf_withRegexes hpp _ _, Except.bind_eq_ok.mpr
    ⟨_, registerIf_withRegexes hcpp _ _, Except.bind_eq_ok.mpr
      ⟨_, registerIf_withRegexes hcpp0x _ _, (registerData_withRegexes hcommon _ _).trans ?_⟩⟩⟩
  simp only [InitData.registered, List.map_append, List.append_assoc]

/-- The expressions of a new lexer are those of its language. -/
theorem initDfa_new {data : InitData} {language : LanguageSupport}
    (h : ∀ entry ∈ data.registered language, entry.lexerstate = 0) :
    (new 1).initDfa data language =
      .ok ((new 1).withRegexes ((data.registered language).map LexerData.info)) := by
  have hnew : new 1 = (new 1).withRegexes [] := rfl
  rw [hnew, initDfa_withRegexes h rfl, List.nil_append]
  rfl

end Lexer

/-! ## The tables are those that would be made -/

/-- The tables of few states and expressions fit in a file. -/
theorem DfaTable.Recognizes.storable {dfa : DfaTable} {ts : List Node} {caseInsensitive : Bool}
    (h : dfa.Recognizes caseInsensitive ts) (hstates : dfa.transitionTable.length < 2 ^ 32)
    (hcount : ts.length < 2 ^ 32) : dfa.Storable := by
  refine ⟨⟨by omega, fun row hrow => ⟨?_, ?_⟩⟩, ?_, ?_⟩
  · rw [h.wellFormed.length_row row hrow]
    decide
  · intro n hn k hk
    cases hk
    have hlt := h.wellFormed.entry_lt row hrow k hn
    omega
  · rw [h.wellFormed.length_acceptanceIndex]
    omega
  · intro n hn k hk
    cases hk
    have hlt := h.index_lt k hn
    omega

namespace Lexer

/-- The lexer when its tables could not be made. -/
def unmade (lexer : Lexer) (regexes : List RegexInfo) : Lexer :=
  { lexer.withRegexes regexes with dfa := resize lexer.dfa 1 ⟨[], []⟩ }

/-- An expression that the grammar refuses lets every attempt to make the tables fail. -/
theorem createDfa_bad {grammar : Text → Option Node} {lexer : Lexer} {regexes : List RegexInfo}
    (hstates : lexer.numStates = 1) {regex : RegexInfo} (hregex : regex ∈ regexes)
    (hbad : grammar regex.str = none) :
    (lexer.withRegexes regexes).createDfa grammar =
      (.error .badRegex, lexer.unmade regexes) := by
  have hparse : parseRegexes grammar (regexes.map RegexInfo.str) = none :=
    parseRegexes_bad (List.mem_map_of_mem hregex) hbad
  have hregexes : (lexer.unmade regexes).regexList[0]? = some regexes := rfl
  obtain ⟨table, htable⟩ : ∃ table, (lexer.unmade regexes).dfa[0]? = some table := by
    rw [unmade]
    cases lexer.dfa with
    | nil => exact ⟨_, rfl⟩
    | cons table tables => exact ⟨table, rfl⟩
  have hstart : (lexer.withRegexes regexes).createDfa grammar =
      createStates grammar [0] (lexer.unmade regexes) := by
    obtain ⟨_, _, _, _, _, _, numStates⟩ := lexer
    obtain rfl : numStates = 1 := hstates
    rfl
  rw [hstart, createStates]
  simp only [hregexes, htable, createDfaForState, hparse]

/-- No load takes the file: it is missing or refused, or the load throws. -/
def Untaken (compilationTime : ℤ) (file : Option Bytes) : Prop :=
  ∀ s ∈ file, ∀ (memory : Memory) (lexer lexer' : Lexer),
    lexer.load memory (ofBytes s) compilationTime ≠ .ok (some lexer')

/-- Without tables in the file the expressions have to be parsed.  If the grammar refuses one, the
lexer has no tables behind the call, and all the expressions are registered still. -/
theorem initLexer_bad {grammar : Text → Option Node} {data : InitData} {language : LanguageSupport}
    (hzero : ∀ entry ∈ data.registered language, entry.lexerstate = 0) {lexer : Lexer}
    (hcompiled : lexer.compiledDfa = false) (hstates : lexer.numStates = 1)
    {regexes : List RegexInfo} {regex : RegexInfo}
    (hregex : regex ∈ regexes ++ (data.registered language).map LexerData.info)
    (hbad : grammar regex.str = none) {time : ℤ} {file : Option Bytes} (hfile : Untaken time file)
    (memory : Memory) (writable : Bool) :
    ∃ failure lexer', (lexer.withRegexes regexes).initLexer memory grammar data language false time
        writable file = (.error failure, lexer', file) ∧
      lexer'.compiledDfa = false ∧ lexer'.numStates = 1 ∧
      lexer' = lexer'.withRegexes (regexes ++ (data.registered language).map LexerData.info) := by
  have hnot : ¬(lexer.withRegexes regexes).compiledDfa = true := hcompiled ▸ Bool.false_ne_true
  have hcreate := createDfa_bad hstates hregex hbad
  rw [initLexer, if_neg hnot, initDfa_withRegexes hzero hcompiled]
  cases file with
  | none =>
    simp only [Bool.false_eq_true, if_false, Option.elim_none, hcreate]
    exact ⟨_, _, rfl, hcompiled, hstates, rfl⟩
  | some s =>
    rcases hload : (lexer.withRegexes (regexes ++
      (data.registered language).map LexerData.info)).load memory (ofBytes s) time with
      failure | _ | lexer'
    · simp only [Bool.false_eq_true, if_false, Option.elim_some, hload]
      exact ⟨_, _, rfl, hcompiled, hstates, rfl⟩
    · simp only [Bool.false_eq_true, if_false, Option.elim_some, hload, hcreate]
      exact ⟨_, _, rfl, hcompiled, hstates, rfl⟩
    · exact absurd hload (hfile s rfl memory _ lexer')

theorem initLexer_compiled {lexer : Lexer} (h : lexer.compiledDfa = true) (memory : Memory)
    (grammar : Text → Option Node) (data : InitData) (language : LanguageSupport)
    (forceReinit : Bool) (time : ℤ) (writable : Bool) (file : Option Bytes) :
    lexer.initLexer memory grammar data language forceReinit time writable file =
      (.ok (), lexer, file) := by
  rw [initLexer, if_pos h]

/-- A lexer of one state with its tables. -/
def made (regexes : List RegexInfo) (dfa : DfaTable) : Lexer :=
  { (new 1).withRegexes regexes with dfa := [dfa], compiledDfa := true }

theorem createDfa_withRegexes {grammar : Text → Option Node} {regexes : List RegexInfo}
    {dfa : DfaTable}
    (h : createDfaForState grammar false (regexes.map RegexInfo.str) ⟨[], []⟩ = .ok dfa) :
    ((new 1).withRegexes regexes).createDfa grammar = (.ok (), made regexes dfa) := by
  have hstart : ((new 1).withRegexes regexes).createDfa grammar = createStates grammar [0]
      { (new 1).withRegexes regexes with dfa := [⟨[], []⟩] } := rfl
  have hregexes : ((new 1).withRegexes regexes).regexList[0]? = some regexes := rfl
  have hdfa : ([⟨[], []⟩] : List DfaTable)[0]? = some ⟨[], []⟩ := rfl
  have hcase : ((new 1).withRegexes regexes).caseInsensitive = false := rfl
  rw [hstart, createStates]
  simp only [hregexes, hdfa, hcase, h]
  rfl

theorem ready_made {grammar : Text → Option Node} {regexes : List RegexInfo} {ts : List Node}
    (hparse : (regexes.map RegexInfo.str).mapM grammar = some ts) {dfa : DfaTable}
    (hdfa : dfa.Recognizes false ts) : (made regexes dfa).Ready [ts] where
  compiledDfa := rfl
  length_dfa := rfl
  tables state ts' hts := by
    cases state with
    | zero =>
      cases hts
      exact ⟨dfa, rfl, hdfa⟩
    | succ state => cases hts
  regexes state ts' hts := by
    cases state with
    | zero =>
      cases hts
      have hlength := mapM_length hparse
      rw [List.length_map] at hlength
      exact ⟨regexes, rfl, hlength.symm⟩
    | succ state => cases hts

section

variable {memory : Memory} {grammar : Text → Option Node} {data : InitData}
  {language : LanguageSupport} (hzero : ∀ entry ∈ data.registered language, entry.lexerstate = 0)

include hzero

theorem initLexer_loaded {time : ℤ} {s : Bytes} {lexer : Lexer}
    (hload : ((new 1).withRegexes ((data.registered language).map LexerData.info)).load memory
      (ofBytes s) time = .ok (some lexer)) (writable : Bool) :
    initLexer memory grammar data language false time writable (some s) (new 1) =
      (.ok (), lexer, some s) := by
  have hcompiled : ¬(new 1).compiledDfa = true := Bool.false_ne_true
  rw [initLexer, if_neg hcompiled, initDfa_new hzero]
  simp only [Bool.false_eq_true, if_false, Option.elim_some, hload]

theorem initLexer_made {dfa : DfaTable}
    (hdfa : createDfaForState grammar false
      (((data.registered language).map LexerData.info).map RegexInfo.str) ⟨[], []⟩ = .ok dfa)
    {forceReinit : Bool} {time : ℤ} {file : Option Bytes}
    (hload : forceReinit = true ∨ ∀ s ∈ file,
      ((new 1).withRegexes ((data.registered language).map LexerData.info)).load memory (ofBytes s)
        time = .ok none) (writable : Bool) :
    initLexer memory grammar data language forceReinit time writable file (new 1) =
      (.ok (), made ((data.registered language).map LexerData.info) dfa,
        if writable then
          some ((made ((data.registered language).map LexerData.info) dfa).save time)
        else file) := by
  have hnone : (if forceReinit then (.ok none : Except AllocFailure (Option Lexer))
      else file.elim (.ok none) fun bytes =>
        ((new 1).withRegexes ((data.registered language).map LexerData.info)).load memory
          (ofBytes bytes) time) = .ok none := by
    rcases hload with rfl | hload
    · rfl
    · cases file with
      | none => exact ite_self (.ok none : Except AllocFailure (Option Lexer))
      | some s => rw [Option.elim_some, hload s rfl, ite_self]
  have hcompiled : ¬(new 1).compiledDfa = true := Bool.false_ne_true
  rw [initLexer, if_neg hcompiled, initDfa_new hzero]
  simp only [hnone, createDfa_withRegexes hdfa]

/-- Whatever is left of a file that the same lexer saved, the lexer has the tables that it makes.
If it may write, the file is whole afterwards. -/
theorem initLexer_saved {dfa : DfaTable}
    (hdfa : createDfaForState grammar false
      (((data.registered language).map LexerData.info).map RegexInfo.str) ⟨[], []⟩ = .ok dfa)
    (hstorable : dfa.Storable) {file : Option Bytes}
    (hfile : ∀ s ∈ file, memory.Holds [dfa] ∧ ∃ time, (-2 ^ 63 ≤ time ∧ time < 2 ^ 63) ∧
      s <+: (made ((data.registered language).map LexerData.info) dfa).save time)
    (forceReinit : Bool) (time : ℤ) (writable : Bool) :
    ∃ file', initLexer memory grammar data language forceReinit time writable file (new 1) =
        (.ok (), made ((data.registered language).map LexerData.info) dfa, file') ∧
      (writable = true →
        file' = some ((made ((data.registered language).map LexerData.info) dfa).save time)) := by
  have hmade : ∀ {file : Option Bytes}, (forceReinit = true ∨ ∀ s ∈ file,
      ((new 1).withRegexes ((data.registered language).map LexerData.info)).load memory (ofBytes s)
        time = .ok none) →
      ∃ file', initLexer memory grammar data language forceReinit time writable file (new 1) =
          (.ok (), made ((data.registered language).map LexerData.info) dfa, file') ∧
        (writable = true →
          file' = some ((made ((data.registered language).map LexerData.info) dfa).save time)) :=
    fun hload =>
      ⟨_, initLexer_made hzero hdfa hload writable, fun hwritable => if_pos hwritable⟩
  cases file with
  | none => exact hmade (.inr fun s hs => absurd hs (Option.not_mem_none s))
  | some s =>
    obtain ⟨hholds, time', htime', hs⟩ := hfile s rfl
    have hwhole : (made ((data.registered language).map LexerData.info) dfa).Storable :=
      { numStates_lt := Nat.one_lt_two_pow (by decide)
        storable := ⟨show 1 < 256 ^ 8 by decide, fun d hd => by
          rw [List.mem_singleton.mp hd]
          exact hstorable⟩ }
    have hload := load_of_saved hwhole hholds htime'
      ((new 1).withRegexes ((data.registered language).map LexerData.info)) time hs
    cases forceReinit with
    | true => exact hmade (.inl rfl)
    | false =>
      split at hload
      · rename_i hsame
        refine ⟨some s, initLexer_loaded hzero hload writable, fun _ => ?_⟩
        rw [hsame.1, hsame.2]
      · refine hmade (.inr fun s' hs' => ?_)
        cases hs'
        exact hload

end

/-- Whatever is left of a file that the same lexer saved, whole or cut short, by the same build or
another, the lexer has the tables that it makes without a file, and saves them if it may. -/
theorem initLexer_cached {grammar : Text → Option Node} {data : InitData}
    {language : LanguageSupport} (hzero : ∀ entry ∈ data.registered language, entry.lexerstate = 0)
    {tree : Node} {trees : List Node}
    (hparse : ((data.registered language).map LexerData.tokenregex).mapM grammar =
      some (tree :: trees))
    (hpopulated : ∀ t ∈ tree :: trees, populated t = true)
    (hcount : (tree :: trees).length < 2 ^ 32)
    (hstates : ∀ dfa, createDfaForState grammar false
      ((data.registered language).map LexerData.tokenregex) ⟨[], []⟩ = .ok dfa →
      dfa.transitionTable.length < 2 ^ 32) :
    ∃ lexer, lexer.Ready [tree :: trees] ∧
      (∀ memory forceReinit time writable,
        initLexer memory grammar data language forceReinit time writable none (new 1) =
          (.ok (), lexer, if writable then some (lexer.save time) else none)) ∧
      ∀ memory forceReinit time time' writable s, memory.Holds lexer.dfa →
        -2 ^ 63 ≤ time ∧ time < 2 ^ 63 → s <+: lexer.save time → ∃ file,
          initLexer memory grammar data language forceReinit time' writable (some s) (new 1) =
            (.ok (), lexer, file) ∧ (writable = true → file = some (lexer.save time')) := by
  have hmap : ((data.registered language).map LexerData.info).map RegexInfo.str =
      (data.registered language).map LexerData.tokenregex := List.map_map
  obtain ⟨dfa, hdfa, hrecognizes, _⟩ := createDfaForState_recognizes false hparse hpopulated
  refine ⟨made ((data.registered language).map LexerData.info) dfa,
    ready_made (hmap ▸ hparse) hrecognizes, fun memory forceReinit time writable => ?_,
    fun memory forceReinit time time' writable s hholds htime hs => ?_⟩
  · exact initLexer_made hzero (hmap ▸ hdfa)
      (.inr fun s hs => absurd hs (Option.not_mem_none s)) writable
  · refine initLexer_saved hzero (hmap ▸ hdfa) (hrecognizes.storable (hstates dfa hdfa) hcount)
      (fun s' hs' => ⟨hholds, time, htime, ?_⟩) forceReinit time' writable
    exact Option.some.inj hs' ▸ hs

end Lexer

/-- One definition, `a`, in every language. -/
def oneData : InitData := ⟨[⟨257, [ch 'a'], none, 0⟩, ⟨0, [], none, 0⟩], [], [], []⟩

theorem registered_oneData (language : LanguageSupport) :
    oneData.registered language = [⟨257, [ch 'a'], none, 0⟩] := by
  obtain ⟨preferPpNumbers, c99, cpp0x, _, _, _, _⟩ := language
  cases preferPpNumbers <;> cases c99 <;> cases cpp0x <;> rfl

def c99Language : LanguageSupport := ⟨false, true, false, false, false, false, false⟩

namespace Lexer

theorem initLexer_cached_one :
    ∃ lexer : Lexer, lexer.Ready [[.charNode (ch 'a') 0]] ∧
      (∀ memory forceReinit time writable,
        initLexer memory (oneGrammar (.charNode (ch 'a') 0)) oneData c99Language forceReinit time
            writable none (new 1) =
          (.ok (), lexer, if writable then some (lexer.save time) else none)) ∧
      ∀ memory forceReinit time time' writable s, memory.Holds lexer.dfa →
        -2 ^ 63 ≤ time ∧ time < 2 ^ 63 → s <+: lexer.save time → ∃ file,
          initLexer memory (oneGrammar (.charNode (ch 'a') 0)) oneData c99Language forceReinit time'
              writable (some s) (new 1) = (.ok (), lexer, file) ∧
            (writable = true → file = some (lexer.save time')) := by
  have hpopulated : ∀ t ∈ [Node.charNode (ch 'a') 0], populated t = true := by decide
  have hparse : ((oneData.registered c99Language).map LexerData.tokenregex).mapM
      (oneGrammar (.charNode (ch 'a') 0)) = some [.charNode (ch 'a') 0] := rfl
  have hstates : ∀ dfa, createDfaForState (oneGrammar (.charNode (ch 'a') 0)) false
      ((oneData.registered c99Language).map LexerData.tokenregex) ⟨[], []⟩ = .ok dfa →
      dfa.transitionTable.length < 2 ^ 32 := by
    intro dfa hdfa
    obtain ⟨dfa', hdfa', _, hlength⟩ := createDfaForState_recognizes false hparse hpopulated
    have heq : dfa' = dfa := Except.ok.inj (hdfa'.symm.trans hdfa)
    have hrows : (alternatives (.charNode (ch 'a') 0) []).rows.length = 2 := rfl
    rw [hrows, heq] at hlength
    exact Nat.lt_of_le_of_lt hlength (by decide)
  have hzero : ∀ entry ∈ oneData.registered c99Language, entry.lexerstate = 0 := by
    rw [registered_oneData]
    exact List.forall_mem_singleton.mpr rfl
  exact initLexer_cached hzero hparse hpopulated (by decide) hstates

end Lexer

end P4LS.Slex
