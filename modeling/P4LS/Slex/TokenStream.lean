import P4LS.Slex.Functor

/-!
# The tokens of a text

A text falls into the pieces that are matched one after another, up to a place where nothing is
matched.  The calls of `get` give the tokens of the pieces in their order, without those skipped,
then the end of the file and from then on the end of the input.
-/

namespace P4LS.Slex

open Bytes LongestMatch

/-- A text that was matched, with the token id of its expression and the value collected. -/
structure Piece where
  id : ℤ
  lexeme : Text
  value : Text

/-- The pieces of a text, and what is left where nothing is matched. -/
inductive Pieces (caseInsensitive : Bool) (regexAt : ℕ → Option RegexInfo) (ts : List Node) :
    Text → List Piece → Text → Prop
  | stop {x : Text} : Munch caseInsensitive ts x none → Pieces caseInsensitive regexAt ts x [] x
  | piece {u rest v last : Text} {k : ℕ} {regex : RegexInfo} {ps : List Piece} :
      Munch caseInsensitive ts (u ++ rest) (some (k, rest)) →
      IsLongest (Viable caseInsensitive ts) (u ++ rest) v → regexAt k = some regex →
      Pieces caseInsensitive regexAt ts rest ps last →
      Pieces caseInsensitive regexAt ts (u ++ rest) (⟨regex.token, u, v⟩ :: ps) last

/-! ## The pieces -/

section

variable {caseInsensitive : Bool} {regexAt : ℕ → Option RegexInfo} {ts : List Node}

/-- The pieces follow one another in the text, and none of them is empty. -/
theorem Pieces.covers {x last : Text} {ps : List Piece}
    (h : Pieces caseInsensitive regexAt ts x ps last) :
    x = (ps.flatMap Piece.lexeme) ++ last ∧ (∀ p ∈ ps, p.lexeme ≠ []) ∧
      Munch caseInsensitive ts last none := by
  induction h with
  | stop hnone => exact ⟨rfl, fun p hp => absurd hp List.not_mem_nil, hnone⟩
  | piece hfound hv hregex hpieces ih =>
    obtain ⟨hrest, hne, hlast⟩ := ih
    refine ⟨?_, List.forall_mem_cons.mpr ⟨fun hu => ?_, hne⟩, hlast⟩
    · rw [List.flatMap_cons, List.append_assoc, ← hrest]
    · have hlt := hfound.length_lt
      have hnil := congrArg List.length hu
      rw [List.length_append, hnil, List.length_nil, Nat.zero_add] at hlt
      exact absurd hlt (Nat.lt_irrefl _)

theorem Pieces.length_le {x last : Text} {ps : List Piece}
    (h : Pieces caseInsensitive regexAt ts x ps last) : ps.length ≤ x.length := by
  induction h with
  | stop _ => exact Nat.zero_le _
  | piece hfound hv hregex hpieces ih => exact Nat.lt_of_le_of_lt ih hfound.length_lt

/-- If each character is matched, nothing is left. -/
theorem Pieces.last_eq_nil {x last : Text} {ps : List Piece}
    (h : Pieces caseInsensitive regexAt ts x ps last)
    (hcomplete : ∀ c, Matched caseInsensitive ts [c]) : last = [] := by
  have hnone := h.covers.2.2
  cases last with
  | nil => rfl
  | cons c rest =>
    cases hnone with
    | nothing hnone =>
      exact absurd (hcomplete c) (hnone [c] ⟨rest, rfl⟩ (List.cons_ne_nil c []))

end

/-! ## The calls -/

section

variable {Position : Type} (wave : Wave Position) (ids : TokenIds) (language : LanguageSupport)

/-- The results that the pieces of a text give, with the end of the file behind them. -/
def stream : Position → Text → List Piece → List (Except LexingError (P4lexToken Position))
  | pos, _, [] => [.ok ⟨ids.eof, [], some pos⟩]
  | pos, text, p :: ps =>
    let passed := p.lexeme.length
    let results := stream (wave.moved passed pos text) (text.drop passed) ps
    if language.emitContnewlines || p.id != ids.contline then
      tokenAt wave ids language p.id p.value pos :: results
    else
      results

/-- The lexer of the preprocessor in one of its states: no expression has a callback or the token
id of an end. -/
structure Lexer.Plain (grammar : Text → Option Node) (lexer : Lexer) (ids : TokenIds)
    (trees : List (List Node)) (ts : List Node) : Prop where
  usable : lexer.Usable grammar trees
  state : trees[lexer.state]? = some ts
  callback : ∀ k regex, lexer.regexAt lexer.state k = some regex → regex.callback = none
  token : ∀ k regex, lexer.regexAt lexer.state k = some regex →
    regex.token ≠ -1 ∧ regex.token ≠ ids.eof

variable {wave ids language} {grammar : Text → Option Node} {trees : List (List Node)}
  {ts : List Node} {lexer : Lexer}

/-- A call leaves the expressions of the state as they are, and tables that are made. -/
structure SameRules (lexer lexer' : Lexer) : Prop where
  compiledDfa : lexer.compiledDfa = true → lexer'.compiledDfa = true
  caseInsensitive : lexer'.caseInsensitive = lexer.caseInsensitive
  regexAt : lexer'.regexAt lexer'.state = lexer.regexAt lexer.state

theorem SameRules.refl (lexer : Lexer) : SameRules lexer lexer := ⟨id, rfl, rfl⟩

theorem SameRules.trans {lexer lexer' lexer'' : Lexer} (h : SameRules lexer lexer')
    (h' : SameRules lexer' lexer'') : SameRules lexer lexer'' :=
  ⟨fun hcompiled => h'.compiledDfa (h.compiledDfa hcompiled),
    h'.caseInsensitive.trans h.caseInsensitive, h'.regexAt.trans h.regexAt⟩

/-- A call gives the token of the match and leaves the lexer as plain as it was. -/
theorem Lexer.Plain.nextToken (h : lexer.Plain grammar ids trees ts) {first rest v : Text} {id : ℤ}
    (hstep : Lexer.MatchStep lexer.caseInsensitive lexer.regexAt trees lexer.state lexer.stateStack
      first rest ⟨id, false, lexer.state, lexer.stateStack⟩)
    (hv : IsLongest (Viable lexer.caseInsensitive ts) first v) (fuel : ℕ) :
    ∃ lexer', lexer.nextToken grammar fuel first [] = (.ok (id, rest, v), lexer') ∧
      lexer'.Plain grammar ids trees ts ∧ SameRules lexer lexer' := by
  obtain ⟨lexer', hreturn, hstate, _⟩ := h.usable.returned h.state hstep rfl hv fuel []
  obtain ⟨husable, hcompiled, hcase, hregexAt⟩ := h.usable.next hreturn
  have hregexes : lexer'.regexAt lexer'.state = lexer.regexAt lexer.state := by
    rw [hregexAt, hstate]
  refine ⟨lexer', hreturn, ⟨husable, ?_, ?_, ?_⟩, ⟨fun _ => hcompiled, hcase, hregexes⟩⟩
  · rw [hstate]
    exact h.state
  · rw [hregexes]
    exact h.callback
  · rw [hregexes]
    exact h.token

theorem Wave.moved_add (wave : Wave Position) (n m : ℕ) (pos : Position) (text : Text) :
    wave.moved (n + m) pos text = wave.moved m (wave.moved n pos text) (text.drop n) := by
  induction n generalizing pos text with
  | zero => rw [Nat.zero_add, List.drop_zero, moved]
  | succ n ih => rw [Nat.succ_add, moved, ih, moved, List.drop_tail]

/-- The functor moved over some characters. -/
def Passes (wave : Wave Position) (functor functor' : SlexFunctor Position) : Prop :=
  ∃ u, functor.first = u ++ functor'.first ∧
    functor'.position = wave.moved u.length functor.position functor.first

theorem Passes.refl (functor : SlexFunctor Position) : Passes wave functor functor :=
  ⟨[], rfl, rfl⟩

theorem Passes.trans {functor functor' functor'' : SlexFunctor Position}
    (h : Passes wave functor functor') (h' : Passes wave functor' functor'') :
    Passes wave functor functor'' := by
  obtain ⟨u, hu, hpos⟩ := h
  obtain ⟨u', hu', hpos'⟩ := h'
  refine ⟨u ++ u', by rw [hu, hu', List.append_assoc], ?_⟩
  rw [hpos', hpos, List.length_append, wave.moved_add, hu, List.drop_left]

theorem Passes.length_le {functor functor' : SlexFunctor Position}
    (h : Passes wave functor functor') : functor'.first.length ≤ functor.first.length := by
  obtain ⟨u, hu, _⟩ := h
  rw [hu, List.length_append]
  exact Nat.le_add_left _ _

variable (wave ids language ts) in
/-- The results that are still to come. -/
inductive Expects (caseInsensitive : Bool) (regexAt : ℕ → Option RegexInfo) :
    List (Except LexingError (P4lexToken Position)) → SlexFunctor Position → Prop
  | ended {functor : SlexFunctor Position} : functor.atEof = true →
      Munch caseInsensitive ts functor.first none → Expects caseInsensitive regexAt [] functor
  | pieces {functor : SlexFunctor Position} {ps : List Piece} {last : Text} :
      functor.atEof = false → Pieces caseInsensitive regexAt ts functor.first ps last →
      Expects caseInsensitive regexAt
        (stream wave ids language functor.position functor.first ps) functor

theorem get_atEof {functor : SlexFunctor Position} (h : functor.atEof = true) (fuel : ℕ) :
    functor.get wave ids language grammar fuel lexer =
      (.ok ⟨ids.eoi, [], none⟩, functor, lexer) := by
  rw [SlexFunctor.get, if_pos h]

section

variable {functor : SlexFunctor Position} {u rest value : Text} {id : ℤ} {lexer' : Lexer}
  (hatEof : functor.atEof = false) (hfirst : functor.first = u ++ rest)

include hatEof hfirst

variable (wave) in
/-- A token that is not skipped is returned. -/
theorem get_kept {fuel : ℕ}
    (hcall : lexer.nextToken grammar fuel functor.first [] = (.ok (id, rest, value), lexer'))
    (hkeep : (language.emitContnewlines ||
      (if id = -1 then ids.eof else id) != ids.contline) = true) :
    functor.get wave ids language grammar fuel lexer =
      (tokenAt wave ids language (if id = -1 then ids.eof else id) value functor.position,
        ⟨rest, wave.moved u.length functor.position functor.first,
          (if id = -1 then ids.eof else id) == ids.eof⟩, lexer') := by
  have hpassed : functor.first.length - rest.length = u.length := by
    rw [hfirst, List.length_append, Nat.add_sub_cancel]
  rw [SlexFunctor.get, if_neg (hatEof ▸ Bool.false_ne_true), hcall]
  simp only [hkeep, hpassed, if_true]

/-- After a line continuation that is skipped the call goes on. -/
theorem get_skipped {fuel : ℕ} (hid : id ≠ -1)
    (hcall : lexer.nextToken grammar (fuel + 1) functor.first [] =
      (.ok (id, rest, value), lexer'))
    (hskip : (language.emitContnewlines || id != ids.contline) = false) :
    functor.get wave ids language grammar (fuel + 1) lexer =
      (⟨rest, wave.moved u.length functor.position functor.first, false⟩ :
        SlexFunctor Position).get wave ids language grammar fuel lexer' := by
  have hpassed : functor.first.length - rest.length = u.length := by
    rw [hfirst, List.length_append, Nat.add_sub_cancel]
  conv_lhs => rw [SlexFunctor.get, if_neg (hatEof ▸ Bool.false_ne_true), hcall]
  simp only [if_neg hid, hskip, hpassed, Bool.false_eq_true, if_false, hatEof]

end

theorem tokenAt_eof (value : Text) (pos : Position) :
    tokenAt wave ids language ids.eof value pos = .ok ⟨ids.eof, [], some pos⟩ := by
  rw [tokenAt, checkToken, if_pos rfl]

variable (wave language) in
/-- One call gives the first of the results of the pieces, and the others are to come. -/
theorem get_of_pieces (h : lexer.Plain grammar ids trees ts) {functor : SlexFunctor Position}
    {ps : List Piece} {last : Text} (hatEof : functor.atEof = false)
    (hpieces : Pieces lexer.caseInsensitive (lexer.regexAt lexer.state) ts functor.first ps last)
    {fuel : ℕ} (hfuel : functor.first.length ≤ fuel) :
    ∃ result results functor' lexer', functor.get wave ids language grammar fuel lexer =
        (result, functor', lexer') ∧
      stream wave ids language functor.position functor.first ps = result :: results ∧
      lexer'.Plain grammar ids trees ts ∧ SameRules lexer lexer' ∧
      Expects wave ids language ts lexer.caseInsensitive (lexer.regexAt lexer.state) results
        functor' ∧
      Passes wave functor functor' := by
  generalize hfirst : functor.first = first at hpieces
  generalize hcase : lexer.caseInsensitive = caseInsensitive at hpieces ⊢
  generalize hregexes : lexer.regexAt lexer.state = regexAt at hpieces ⊢
  induction hpieces generalizing functor lexer fuel with
  | @stop x hnone =>
    subst hfirst hcase
    obtain ⟨ready, hready, hsame, _⟩ := h.usable.ready
    obtain ⟨_, _, v, _, hv⟩ := hready.exists_matchStep (hsame.state ▸ h.state) [] functor.first
    rw [hsame.caseInsensitive] at hv
    obtain ⟨lexer', hcall, hplain, hrules⟩ := h.nextToken (.nothing h.state hnone) hv fuel
    have hkeep : (language.emitContnewlines ||
        (if (-1 : ℤ) = -1 then ids.eof else -1) != ids.contline) = true := by
      rw [if_pos rfl, Bool.or_eq_true, bne_iff_ne]
      exact .inr ids.eof_ne_contline
    have hget := get_kept wave hatEof (List.nil_append functor.first).symm hcall hkeep
    rw [if_pos rfl, tokenAt_eof, beq_self_eq_true] at hget
    exact ⟨_, [], _, lexer', hget, rfl, hplain, hrules, .ended rfl hnone, [], rfl, rfl⟩
  | @piece u rest v last k regex ps hfound hv hregex hpieces ih =>
    have hlt := hfound.length_lt
    subst hcase hregexes
    obtain ⟨hid, hneof⟩ := h.token k regex hregex
    have hstep : Lexer.MatchStep lexer.caseInsensitive lexer.regexAt trees lexer.state
        lexer.stateStack (u ++ rest) rest ⟨regex.token, false, lexer.state, lexer.stateStack⟩ :=
      .plain h.state hfound hregex (h.callback k regex hregex)
    obtain ⟨lexer', hcall, hplain, hrules⟩ := h.nextToken hstep hv fuel
    rw [← hfirst] at hcall
    have hdrop : (u ++ rest).drop u.length = rest := List.drop_left
    cases hkeep : language.emitContnewlines || regex.token != ids.contline with
    | true =>
      have hget := get_kept wave hatEof hfirst hcall (by rwa [if_neg hid])
      rw [if_neg hid, beq_eq_false_iff_ne.mpr hneof] at hget
      refine ⟨_, _, _, lexer', hget, ?_, hplain, hrules, .pieces rfl hpieces, u, hfirst, rfl⟩
      simp only [stream, hkeep, if_true, hdrop, hfirst]
    | false =>
      obtain ⟨fuel, rfl⟩ := Nat.exists_eq_succ_of_ne_zero (Nat.ne_of_gt
        (Nat.lt_of_lt_of_le (Nat.zero_lt_of_lt hlt) (hfirst ▸ hfuel)))
      have hrest : rest.length ≤ fuel := by
        rw [hfirst] at hfuel
        omega
      obtain ⟨result, results, functor', lexer'', hget, hstream, hplain', hrules', hexpects,
          hpasses⟩ :=
        @ih lexer' hplain ⟨rest, wave.moved u.length functor.position functor.first, false⟩ rfl
          fuel hrest rfl hrules.caseInsensitive hrules.regexAt
      refine ⟨result, results, functor', lexer'', ?_, ?_, hplain', hrules.trans hrules', hexpects,
        Passes.trans ?_ hpasses⟩
      · rw [get_skipped hatEof hfirst hid hcall hkeep, hget]
      · simp only [stream, hkeep, Bool.false_eq_true, if_false, hdrop]
        rwa [← hfirst]
      · exact ⟨u, hfirst, rfl⟩

/-- The token of the end of the input. -/
def endOfInput (ids : TokenIds) : Except LexingError (P4lexToken Position) :=
  .ok ⟨ids.eoi, [], none⟩

/-- A call gives the first of the results to come, or the end of the input behind them. -/
theorem get_of_expects {results : List (Except LexingError (P4lexToken Position))}
    {functor : SlexFunctor Position} (h : lexer.Plain grammar ids trees ts)
    (hexpects : Expects wave ids language ts lexer.caseInsensitive (lexer.regexAt lexer.state)
      results functor)
    {fuel : ℕ} (hfuel : functor.first.length ≤ fuel) :
    ∃ functor' lexer', functor.get wave ids language grammar fuel lexer =
        (results.headD (endOfInput ids), functor', lexer') ∧
      lexer'.Plain grammar ids trees ts ∧ SameRules lexer lexer' ∧
      Expects wave ids language ts lexer.caseInsensitive (lexer.regexAt lexer.state) results.tail
        functor' ∧
      Passes wave functor functor' := by
  cases hexpects with
  | ended hatEof hnone =>
    exact ⟨functor, lexer, get_atEof hatEof fuel, h, .refl lexer, .ended hatEof hnone,
      .refl functor⟩
  | pieces hatEof hpieces =>
    obtain ⟨result, results, functor', lexer', hget, hstream, hplain, hrules, hexpects, hpasses⟩ :=
      get_of_pieces wave language h hatEof hpieces hfuel
    rw [hstream]
    exact ⟨functor', lexer', hget, hplain, hrules, hexpects, hpasses⟩

/-- The first results and then the ends of the input. -/
def firstResults (ids : TokenIds) (results : List (Except LexingError (P4lexToken Position)))
    (n : ℕ) : List (Except LexingError (P4lexToken Position)) :=
  (results ++ List.replicate n (endOfInput ids)).take n

theorem firstResults_succ (results : List (Except LexingError (P4lexToken Position))) (n : ℕ) :
    firstResults ids results (n + 1) =
      results.headD (endOfInput ids) :: firstResults ids results.tail n := by
  cases results with
  | nil => rw [firstResults, List.nil_append, List.replicate_succ, List.take_succ_cons]; rfl
  | cons result results =>
    rw [firstResults, List.cons_append, List.take_succ_cons, List.replicate_succ',
      ← List.append_assoc, List.take_append_of_le_length (by
        rw [List.length_append, List.length_replicate]
        exact Nat.le_add_left _ _)]
    rfl

/-- The calls give the results to come, and then the end of the input. -/
theorem gets_of_expects {results : List (Except LexingError (P4lexToken Position))}
    {functor : SlexFunctor Position} (h : lexer.Plain grammar ids trees ts)
    (hexpects : Expects wave ids language ts lexer.caseInsensitive (lexer.regexAt lexer.state)
      results functor)
    {fuel : ℕ} (hfuel : functor.first.length ≤ fuel) (n : ℕ) :
    ∃ functor' lexer', functor.gets wave ids language grammar fuel n lexer =
        (firstResults ids results n, functor', lexer') ∧
      Expects wave ids language ts lexer.caseInsensitive (lexer.regexAt lexer.state)
        (results.drop n) functor' ∧
      Passes wave functor functor' := by
  induction n generalizing results functor lexer with
  | zero =>
    exact ⟨functor, lexer, by rw [firstResults, List.take_zero]; rfl, hexpects, .refl functor⟩
  | succ n ih =>
    obtain ⟨functor₁, lexer₁, hget, hplain, hrules, hexpects₁, hpasses₁⟩ :=
      get_of_expects h hexpects hfuel
    rw [← hrules.caseInsensitive, ← hrules.regexAt] at hexpects₁ ⊢
    obtain ⟨functor', lexer', hgets, hleft, hpasses⟩ :=
      ih hplain hexpects₁ (Nat.le_trans hpasses₁.length_le hfuel)
    refine ⟨functor', lexer', ?_, ?_, hpasses₁.trans hpasses⟩
    · rw [SlexFunctor.gets, hget]
      simp only [hgets]
      rw [firstResults_succ]
    · rwa [List.drop_tail] at hleft

theorem Lexer.Plain.exists_pieces (h : lexer.Plain grammar ids trees ts) (x : Text) :
    ∃ ps last, Pieces lexer.caseInsensitive (lexer.regexAt lexer.state) ts x ps last := by
  obtain ⟨ready, hready, hsame, _⟩ := h.usable.ready
  have hts : trees[ready.state]? = some ts := hsame.state ▸ h.state
  rw [← hsame.caseInsensitive, ← hsame.regexAt_eq, ← hsame.state]
  induction hn : x.length using Nat.strongRecOn generalizing x with
  | ind n ih =>
    obtain ⟨dfa, _, hrecognizes⟩ := hready.tables ready.state ts hts
    obtain ⟨found, v, _, hfound, hv⟩ := doMatch_spec hrecognizes x []
    cases found with
    | none => exact ⟨[], x, .stop hfound⟩
    | some found =>
      obtain ⟨k, rest⟩ := found
      obtain ⟨regex, hregex⟩ := hready.exists_regexAt hts hfound
      obtain ⟨ps, last, hpieces⟩ := ih rest.length (hn ▸ hfound.length_lt) rest rfl
      have hfound' := hfound
      cases hfound with
      | @longest u _ _ hx _ _ =>
        subst hx
        exact ⟨⟨regex.token, u, v⟩ :: ps, last, .piece hfound' hv hregex hpieces⟩

/-- The calls give the tokens of the pieces of the text, then the end of the file, and then the
end of the input again and again. -/
theorem gets_stream (h : lexer.Plain grammar ids trees ts) {functor : SlexFunctor Position}
    (hatEof : functor.atEof = false) {fuel : ℕ} (hfuel : functor.first.length ≤ fuel) :
    ∃ ps last, Pieces lexer.caseInsensitive (lexer.regexAt lexer.state) ts functor.first ps last ∧
      ∀ n, (functor.gets wave ids language grammar fuel n lexer).1 =
        firstResults ids (stream wave ids language functor.position functor.first ps) n := by
  obtain ⟨ps, last, hpieces⟩ := h.exists_pieces functor.first
  refine ⟨ps, last, hpieces, fun n => ?_⟩
  obtain ⟨functor', lexer', hgets, _⟩ := gets_of_expects h (.pieces hatEof hpieces) hfuel n
  rw [hgets]

/-- Token ids of the preprocessor. -/
def fewIds : TokenIds where
  eof := 300
  eoi := 301
  contline := 302
  identifier := 303
  charlit := 304
  stringlit := 305
  rawstringlit := 306
  longintlit := 307
  ppHheader := 308
  ppQheader := 309
  ppInclude := 310
  trigraphs := []
  withAltTokenType := id
  eof_ne_contline := by decide

/-- Positions that count characters, and validations that pass. -/
def countingWave : Wave ℕ := ⟨fun n _ => n + 1, fun _ _ => true, fun _ _ => true, id, id⟩

theorem oneLexer_plain {node : Node} (hnode : populated node = true) :
    (Lexer.oneLexer none).Plain (Lexer.oneGrammar node) fewIds [[node]] [node] where
  usable := Lexer.oneLexer_usable hnode none
  state := rfl
  callback k regex hregex := by
    match k with
    | 0 =>
      cases hregex
      rfl
    | _ + 1 => cases hregex
  token k regex hregex := by
    match k with
    | 0 =>
      cases hregex
      decide
    | _ + 1 => cases hregex

/-- A functor at the beginning of a text. -/
def functorAt (text : Text) : SlexFunctor ℕ := ⟨text, 0, false⟩

theorem gets_stream_letters :
    ∃ ps last, Pieces false ((Lexer.oneLexer none).regexAt 0) [.charNode (ch 'a') 0]
        (functorAt (str "aab")).first ps last ∧
      ∀ n, ((functorAt (str "aab")).gets countingWave fewIds c99Language
          (Lexer.oneGrammar (.charNode (ch 'a') 0)) 3 n (Lexer.oneLexer none)).1 =
        firstResults fewIds
          (stream countingWave fewIds c99Language 0 (str "aab") ps) n :=
  gets_stream (oneLexer_plain rfl) rfl (Nat.le_refl 3)

theorem length_stream_le (pos : Position) (text : Text) (ps : List Piece) :
    (stream wave ids language pos text ps).length ≤ ps.length + 1 := by
  induction ps generalizing pos text with
  | nil => exact Nat.le_refl 1
  | cons p ps ih =>
    rw [stream, List.length_cons]
    split
    · exact Nat.succ_le_succ (ih _ _)
    · exact Nat.le_succ_of_le (ih _ _)

theorem stream_ne_nil (pos : Position) (text : Text) (ps : List Piece) :
    stream wave ids language pos text ps ≠ [] := by
  induction ps generalizing pos text with
  | nil => exact List.cons_ne_nil _ _
  | cons p ps ih =>
    rw [stream]
    split
    · exact List.cons_ne_nil _ _
    · exact ih _ _

/-- If each character is matched, the calls pass over the whole text, in at most one call more
than there are characters. -/
theorem gets_covers (h : lexer.Plain grammar ids trees ts)
    (hcomplete : ∀ c, Matched lexer.caseInsensitive ts [c]) {functor : SlexFunctor Position}
    (hatEof : functor.atEof = false) {fuel : ℕ} (hfuel : functor.first.length ≤ fuel) {n : ℕ}
    (hn : functor.first.length < n) :
    ∃ results functor' lexer', functor.gets wave ids language grammar fuel n lexer =
        (results, functor', lexer') ∧ functor'.atEof = true ∧ functor'.first = [] ∧
      functor'.position =
        wave.moved functor.first.length functor.position functor.first := by
  obtain ⟨ps, last, hpieces⟩ := h.exists_pieces functor.first
  have hexpects : Expects wave ids language ts lexer.caseInsensitive (lexer.regexAt lexer.state)
      (stream wave ids language functor.position functor.first ps) functor :=
    .pieces hatEof hpieces
  obtain ⟨functor', lexer', hgets, hleft, u, hu, hposition⟩ := gets_of_expects h hexpects hfuel n
  have hstream : (stream wave ids language functor.position functor.first ps).length ≤ n :=
    Nat.le_trans (length_stream_le functor.position functor.first ps)
      (Nat.le_trans (Nat.succ_le_succ hpieces.length_le) hn)
  rw [List.drop_eq_nil_of_le hstream] at hleft
  generalize hnil : ([] : List (Except LexingError (P4lexToken Position))) = left at hleft
  cases hleft with
  | ended hend hnone =>
    have hstop : Pieces lexer.caseInsensitive (lexer.regexAt lexer.state) ts functor'.first []
        functor'.first := .stop hnone
    have hfirst : functor'.first = [] := hstop.last_eq_nil hcomplete
    rw [hfirst, List.append_nil] at hu
    rw [← hu] at hposition
    exact ⟨_, functor', lexer', hgets, hend, hfirst, hposition⟩
  | pieces hend hpieces' =>
    exact absurd hnil.symm (stream_ne_nil _ _ _)

/-- The class of all characters. -/
def allChars : Node := .cclNode (Vector.replicate 256 true) 0

theorem gets_covers_allChars :
    ∃ results functor' lexer', (functorAt (str "ab")).gets countingWave fewIds
        c99Language (Lexer.oneGrammar allChars) 2 3 (Lexer.oneLexer none) =
        (results, functor', lexer') ∧ functor'.atEof = true ∧ functor'.first = [] ∧
      functor'.position = 2 := by
  have hcomplete : ∀ c, Matched false [allChars] [c] := by
    intro c
    have hflag : (Vector.replicate 256 true).toList[c.toNat]? = some true := by
      rw [Vector.toList_replicate, List.getElem?_replicate, if_pos c.toNat_lt]
    exact ⟨allChars, List.mem_singleton_self _, c, rfl, hflag⟩
  have hpopulated : populated allChars = true := by
    rw [allChars, populated, Vector.toList_replicate]
    rfl
  exact gets_covers (oneLexer_plain hpopulated) hcomplete rfl (Nat.le_refl 2) (Nat.lt_succ_self 2)

end

end P4LS.Slex
