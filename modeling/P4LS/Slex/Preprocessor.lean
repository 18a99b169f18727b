import P4LS.Slex.Generated
import P4LS.Slex.Shared

/-!
# From the token definitions to the tokens

The definitions of a language are expressions as they are written, with the ids of their tokens.
The first functor registers them, parses them and makes the tables, or takes them from the file.
From then on every functor cuts its text into the longest prefixes that a definition stands for,
each with the id of the first such definition.
-/

namespace P4LS.Slex

open LongestMatch

/-- A `TOKEN_DATA` entry: an expression and the id of its token, in the one state of the lexer. -/
structure Definition (spirit : Spirit) where
  tokenid : ℤ
  expression : Expression spirit

namespace Definition

variable {spirit : Spirit}

def entry (d : Definition spirit) : LexerData := ⟨d.tokenid, d.expression.text, none, 0⟩

end Definition

section

variable {spirit : Spirit} (ds : List (Definition spirit))

/-- The pieces of a text, and what is left where no definition stands for a prefix. -/
inductive Tokenized : Text → List Piece → Text → Prop
  | stop {x : Text} : Longest false (ds.map Definition.expression) x none → Tokenized x [] x
  | piece {u rest v last : Text} {k : ℕ} {d : Definition spirit} {ps : List Piece} :
      Longest false (ds.map Definition.expression) (u ++ rest) (some (k, rest)) →
      ds[k]? = some d →
      IsLongest (fun w => ∃ y, Denoted false (ds.map Definition.expression) (w ++ y))
        (u ++ rest) v →
      Tokenized rest ps last →
      Tokenized (u ++ rest) (⟨d.tokenid, u, v⟩ :: ps) last

/-- The trees of the definitions. -/
def treesOf : List Node := (ds.map Definition.expression).map fun e => e.regex.tree

/-- The expression of an index with its token. -/
def definedAt (k : ℕ) : Option RegexInfo := (ds.map fun d => d.entry.info)[k]?

variable {ds}

theorem tokenized_of_pieces {x last : Text} {ps : List Piece}
    (h : Pieces false (definedAt ds) (treesOf ds) x ps last) : Tokenized ds x ps last := by
  induction h with
  | stop hnone => exact .stop (munch_iff.mp hnone)
  | piece hfound hv hregex _ ih =>
    rw [definedAt, List.getElem?_map] at hregex
    obtain ⟨d, hd, rfl⟩ := Option.map_eq_some_iff.mp hregex
    exact .piece (munch_iff.mp hfound) hd (hv.congr fun w _ => viable_iff) ih

/-- The lexer made of some definitions. -/
def lexerOf (ds : List (Definition spirit)) (dfa : DfaTable) : Lexer :=
  Lexer.made (ds.map fun d => d.entry.info) dfa

variable {dfa : DfaTable}

theorem mapM_definitions (h : spirit.Documented) (ds : List (Definition spirit)) :
    ((ds.map fun d => d.entry.info).map RegexInfo.str).mapM spirit.grammar =
      some (treesOf ds) := by
  have htexts : (ds.map fun d => d.entry.info).map RegexInfo.str =
      (ds.map Definition.expression).map Expression.text := by
    rw [List.map_map, List.map_map]
    rfl
  rw [htexts, Expression.mapM_grammar h, treesOf]

theorem regexAt_lexerOf : (lexerOf ds dfa).regexAt (lexerOf ds dfa).state = definedAt ds := rfl

theorem plain_lexerOf (h : spirit.Documented) (hne : ds ≠ []) {ids : TokenIds}
    (hids : ∀ d ∈ ds, d.tokenid ≠ -1 ∧ d.tokenid ≠ ids.eof)
    (hdfa : dfa.Recognizes false (treesOf ds)) :
    (lexerOf ds dfa).Plain spirit.grammar ids [treesOf ds] (treesOf ds) where
  usable :=
    { parsed :=
        { length_regexList := rfl
          parses := .cons ⟨mapM_definitions h ds, by
            rw [treesOf]
            exact fun hnil => hne (List.map_eq_nil_iff.mp (List.map_eq_nil_iff.mp hnil)),
            Expression.populated_trees _⟩ .nil }
      nonempty := List.cons_ne_nil _ _
      tables := .inl (Lexer.ready_made (mapM_definitions h ds) hdfa) }
  state := rfl
  callback k regex hregex := by
    rw [regexAt_lexerOf, definedAt, List.getElem?_map] at hregex
    obtain ⟨d, _, rfl⟩ := Option.map_eq_some_iff.mp hregex
    rfl
  token k regex hregex := by
    rw [regexAt_lexerOf, definedAt, List.getElem?_map] at hregex
    obtain ⟨d, hd, rfl⟩ := Option.map_eq_some_iff.mp hregex
    exact hids d (List.mem_of_getElem? hd)

end

section

variable {spirit : Spirit} {data : InitData} {language : LanguageSupport} {d : Definition spirit}
  {ds : List (Definition spirit)}

theorem info_entries (ds : List (Definition spirit)) :
    (ds.map Definition.entry).map LexerData.info = ds.map fun d => d.entry.info := List.map_map

/-- What the first functor makes of the definitions, whatever it finds of a file that was saved with
their tables. -/
theorem initLexer_definitions (h : spirit.Documented)
    (hregistered : data.registered language = (d :: ds).map Definition.entry)
    (hcount : (d :: ds).length < 2 ^ 32)
    (hstates : ∀ dfa, createDfaForState spirit.grammar false
      ((d :: ds).map fun d => d.expression.text) ⟨[], []⟩ = .ok dfa →
      dfa.transitionTable.length < 2 ^ 32) :
    ∃ dfa, dfa.Recognizes false (treesOf (d :: ds)) ∧
      ∀ (memory : Memory) (file : Option Bytes), (∀ s ∈ file, memory.Holds [dfa] ∧
          ∃ time, (-2 ^ 63 ≤ time ∧ time < 2 ^ 63) ∧ s <+: (lexerOf (d :: ds) dfa).save time) →
        ∀ forceReinit time writable, ∃ file',
          (Lexer.new 1).initLexer memory spirit.grammar data language forceReinit time writable
            file = (.ok (), lexerOf (d :: ds) dfa, file') := by
  have htexts : ((d :: ds).map fun d => d.entry.info).map RegexInfo.str =
      (d :: ds).map fun d => d.expression.text := List.map_map
  obtain ⟨dfa, hdfa, hrecognizes, _⟩ := createDfaForState_recognizes false
    (mapM_definitions h (d :: ds))
    (Expression.populated_trees ((d :: ds).map Definition.expression))
  have hlength : (treesOf (d :: ds)).length < 2 ^ 32 := by
    rw [treesOf, List.length_map, List.length_map]
    exact hcount
  refine ⟨dfa, hrecognizes, fun memory file hfile forceReinit time writable => ?_⟩
  have hzero : ∀ entry ∈ data.registered language, entry.lexerstate = 0 := by
    intro entry hentry
    rw [hregistered] at hentry
    obtain ⟨d, _, rfl⟩ := List.mem_map.mp hentry
    rfl
  have hinfo : (data.registered language).map LexerData.info =
      (d :: ds).map fun d => d.entry.info := by
    rw [hregistered, info_entries]
  have hsaved : ∀ s ∈ file, memory.Holds [dfa] ∧
      ∃ time, (-2 ^ 63 ≤ time ∧ time < 2 ^ 63) ∧
        s <+: (Lexer.made ((data.registered language).map LexerData.info) dfa).save time := by
    rw [hinfo]
    exact hfile
  obtain ⟨file', hinit, _⟩ := Lexer.initLexer_saved hzero (hinfo ▸ hdfa)
    (hrecognizes.storable (hstates dfa (htexts ▸ hdfa)) hlength) hsaved forceReinit time writable
  rw [hinfo] at hinit
  exact ⟨file', hinit⟩

variable {Position : Type} (wave : Wave Position) {ids : TokenIds}

/-- In every order in which functors are made and called, from the first one that makes the lexer,
each functor gives the tokens of the pieces of its text, then the end of the file and the ends of
the input.  The definitions are those of the language of the first functor. -/
theorem tokens_of_calls (h : spirit.Documented)
    (hregistered : data.registered language = (d :: ds).map Definition.entry)
    (hcount : (d :: ds).length < 2 ^ 32)
    (hstates : ∀ dfa, createDfaForState spirit.grammar false
      ((d :: ds).map fun d => d.expression.text) ⟨[], []⟩ = .ok dfa →
      dfa.transitionTable.length < 2 ^ 32)
    (hids : ∀ d' ∈ d :: ds, d'.tokenid ≠ -1 ∧ d'.tokenid ≠ ids.eof) (time : ℤ) (writable : Bool) :
    ∃ dfa, ∀ (memory₀ : Memory) (file : Option Bytes), (∀ s ∈ file, memory₀.Holds [dfa] ∧
          ∃ time, (-2 ^ 63 ≤ time ∧ time < 2 ^ 63) ∧ s <+: (lexerOf (d :: ds) dfa).save time) →
      ∀ (calls before after : List (Call Position)) (memory : Memory) (text₀ text : Text)
        (position₀ position : Position) (language' : LanguageSupport),
        .construct memory₀ text₀ position₀ language :: calls =
          before ++ .construct memory text position language' :: after →
        ∃ ps last, Tokenized (d :: ds) text ps last ∧
          resultsOf (before.countP Call.isConstruct)
              ((⟨Lexer.new 1, file, []⟩ : Functors Position).calls wave ids spirit.grammar data time
                writable (.construct memory₀ text₀ position₀ language :: calls)) =
            firstResults ids (stream wave ids language' position text ps)
              (callsOf (before.countP Call.isConstruct) after) := by
  obtain ⟨dfa, hrecognizes, hinit⟩ := initLexer_definitions h hregistered hcount hstates
  have hplain := plain_lexerOf h (List.cons_ne_nil d ds) hids hrecognizes
  refine ⟨dfa, fun memory₀ file hfile calls before after memory text₀ text position₀ position
    language' heq => ?_⟩
  obtain ⟨file', hfirst⟩ := hinit memory₀ file hfile false time writable
  have hcall : (⟨Lexer.new 1, file, []⟩ : Functors Position).call wave ids spirit.grammar data time
      writable (.construct memory₀ text₀ position₀ language) =
      ([], ⟨lexerOf (d :: ds) dfa, file', [(language, ⟨text₀, position₀, false⟩)]⟩) := by
    rw [Functors.call, hfirst]
    rfl
  obtain ⟨ps, last, hpieces⟩ := hplain.exists_pieces text
  have hempty : (⟨lexerOf (d :: ds) dfa, file', []⟩ : Functors Position).Made wave ids
      spirit.grammar [treesOf (d :: ds)] (treesOf (d :: ds)) false (definedAt (d :: ds))
      (fun _ => []) :=
    ⟨rfl, hplain, rfl, rfl, fun i language functor hi => by cases hi⟩
  -- On a lexer that has its tables already the first call would do the same.
  have hagain : (⟨lexerOf (d :: ds) dfa, file', []⟩ : Functors Position).call wave ids
      spirit.grammar data time writable (.construct memory₀ text₀ position₀ language) =
      ([], ⟨lexerOf (d :: ds) dfa, file', [(language, ⟨text₀, position₀, false⟩)]⟩) := by
    have hcompiled : (lexerOf (d :: ds) dfa).compiledDfa = true := rfl
    rw [Functors.call, Lexer.initLexer_compiled hcompiled]
    rfl
  have hcalls := resultsOf_constructed data time writable hempty hpieces memory position language'
    before after
  refine ⟨ps, last, tokenized_of_pieces hpieces, ?_⟩
  rw [List.length_nil, Nat.zero_add, ← heq, Functors.calls_cons _ _ _ hagain] at hcalls
  rw [Functors.calls_cons _ _ _ hcall, hcalls]

end

def aOrBsDefinition : Definition plainSpirit := ⟨257, aOrBsExpression⟩

/-- One definition, `a|b*`, in every language. -/
def aOrBsData : InitData := ⟨[aOrBsDefinition.entry, ⟨0, [], none, 0⟩], [], [], []⟩

theorem tokens_of_calls_aOrBs :
    ∃ dfa, ∀ (memory₀ : Memory) (file : Option Bytes), (∀ s ∈ file, memory₀.Holds [dfa] ∧
          ∃ time, (-2 ^ 63 ≤ time ∧ time < 2 ^ 63) ∧
            s <+: (lexerOf [aOrBsDefinition] dfa).save time) →
      ∀ (calls before after : List (Call ℕ)) (memory : Memory) (text₀ text : Text)
        (position₀ position : ℕ) (language' : LanguageSupport),
        .construct memory₀ text₀ position₀ c99Language :: calls =
          before ++ .construct memory text position language' :: after →
        ∃ ps last, Tokenized [aOrBsDefinition] text ps last ∧
          resultsOf (before.countP Call.isConstruct)
              ((⟨Lexer.new 1, file, []⟩ : Functors ℕ).calls countingWave fewIds
                plainSpirit.grammar aOrBsData 0 true
                (.construct memory₀ text₀ position₀ c99Language :: calls)) =
            firstResults fewIds (stream countingWave fewIds language' position text ps)
              (callsOf (before.countP Call.isConstruct) after) := by
  have hstates : ∀ dfa, createDfaForState plainSpirit.grammar false
      ([aOrBsDefinition].map fun d => d.expression.text) ⟨[], []⟩ = .ok dfa →
      dfa.transitionTable.length < 2 ^ 32 := by
    intro dfa hdfa
    obtain ⟨dfa', hdfa', _, hlength⟩ := createDfaForState_recognizes false
      (Expression.mapM_grammar plainSpirit_documented [aOrBsExpression])
      (Expression.populated_trees [aOrBsExpression])
    have heq : dfa' = dfa := Except.ok.inj (hdfa'.symm.trans hdfa)
    have hrows : (alternatives aOrBs.tree []).rows.length = 3 := rfl
    rw [← heq]
    exact Nat.lt_of_le_of_lt (hlength.trans_eq (congrArg (2 ^ ·) hrows)) (by decide)
  exact tokens_of_calls countingWave plainSpirit_documented rfl (by decide) hstates
    (List.forall_mem_singleton.mpr (by decide)) 0 true

end P4LS.Slex
