import P4LS.Lexer.Tokens

/-!
# String literals

A string literal is read to its closing quote, but the quote itself stays: it is
the lookahead of the next call, which reads it as the opening quote of another
string.  So what follows a literal is lexed as if a quote stood before it, and
that gives the tokens of the text itself in one case only: the text is a single
token the lexer does not know, and has no quote of its own.
-/

namespace P4LS

open Bytes

namespace Lexer

/-! ## One literal -/

/-- A sequence of characters other than a quote and a backslash, and of pairs of a backslash
and any character. -/
def isStringBody : Bytes → Bool
  | [] => true
  | [c] => c != ch '"' && c != ch '\\'
  | c :: d :: s => if c = ch '\\' then isStringBody s else c != ch '"' && isStringBody (d :: s)

/-- A string goes to the first quote behind its body. -/
theorem string_of_isStringBody {body : Bytes} (h : isStringBody body = true) (rest : Bytes) :
    stringBody (body ++ ch '"' :: rest) = body ∧
      stringEnd (body ++ ch '"' :: rest) = ch '"' :: rest := by
  fun_induction isStringBody body with
  | case1 => exact ⟨stringBody_quote rest, stringEnd_quote rest⟩
  | case2 c =>
    simp only [Bool.and_eq_true, bne_iff_ne, ne_eq] at h
    rw [List.singleton_append, stringBody_cons h.1 h.2, stringEnd_cons h.1 h.2,
      stringBody_quote, stringEnd_quote]
    exact ⟨rfl, rfl⟩
  | case3 d s ih =>
    obtain ⟨hbody, hend⟩ := ih h
    rw [List.cons_append, List.cons_append, stringBody_escape, stringEnd_escape, hbody, hend]
    exact ⟨rfl, rfl⟩
  | case4 c d s hc ih =>
    simp only [Bool.and_eq_true, bne_iff_ne, ne_eq] at h
    obtain ⟨hbody, hend⟩ := ih h.2
    rw [List.cons_append, stringBody_cons h.1 hc, stringEnd_cons h.1 hc, hbody, hend]
    exact ⟨rfl, rfl⟩

theorem tokenStart_quote (s : Bytes) : tokenStart (ch '"' :: s) = some (ch '"' :: s) :=
  tokenStart_token (by decide) fun hslash => absurd hslash.1 (by decide)

theorem stringToken_closed {s t : Bytes} (h : stringEnd s = ch '"' :: t) :
    stringToken s =
      { kind := .ok .tStringLiteral, text := some (stringBody s), number := none } := by
  rw [stringToken, h, if_neg (List.cons_ne_nil _ _)]

/-- A literal is returned with its body, and its closing quote is what is read next. -/
theorem exists_completes_string {lx : Lexer} {body rest : Bytes}
    (hbody : isStringBody body = true)
    (hne : EOF ∉ ch '"' :: (body ++ ch '"' :: rest))
    (h : StartsAt lx (ch '"' :: (body ++ ch '"' :: rest))) :
    ∃ o, Completes lx o ∧ o.1 = .ok .tStringLiteral ∧ o.2.text = body ∧ o.2.Clean ∧
      o.2.width = lx.width ∧ o.2.pending = ch '"' :: rest := by
  obtain ⟨hread, hend⟩ := string_of_isStringBody hbody rest
  obtain ⟨o, ho, hclean, hseen, hwidth, hpending⟩ :=
    h.exists_completes hne (tokenStart_quote _)
  rw [firstToken_string, stringToken_closed hend, hread] at hseen
  rw [firstToken_string] at hwidth hpending
  have hkind : o.1 = .ok .tStringLiteral := congrArg Observed.kind hseen
  refine ⟨o, ho, hkind, ?_, hclean, hwidth, hpending.trans hend⟩
  have htext := congrArg Observed.text hseen
  rw [← Prod.eta o, hkind, observe_text (by decide)] at htext
  exact Option.some.inj htext

/-! ## Behind a literal -/

/-- The quotes a text has, when it is read from inside a string. -/
def quotes : Bytes → Nat
  | [] => 0
  | [c] => if c = ch '"' then 1 else 0
  | c :: d :: s =>
    if c = ch '"' then quotes (d :: s) + 1
    else if c = ch '\\' then quotes s
    else quotes (d :: s)

theorem quotes_quote (s : Bytes) : quotes (ch '"' :: s) = quotes s + 1 := by
  cases s <;> simp [quotes]

theorem quotes_escape (c : UInt8) (s : Bytes) : quotes (ch '\\' :: c :: s) = quotes s := by
  rw [quotes, if_neg (by decide), if_pos rfl]

theorem quotes_cons {c : UInt8} (h : c ≠ ch '"') (h' : c ≠ ch '\\') (s : Bytes) :
    quotes (c :: s) = quotes s := by
  cases s with
  | nil => simp [quotes, h]
  | cons d s => rw [quotes, if_neg h, if_neg h']

/-- The quotes are those from the next one on. -/
theorem quotes_stringEnd (s : Bytes) : quotes (stringEnd s) = quotes s := by
  fun_induction stringEnd s with
  | case1 => rfl
  | case2 => rfl
  | case3 c h => simp [quotes, h]
  | case4 => rfl
  | case5 d s h ih => rw [ih, quotes, if_neg h, if_pos rfl]
  | case6 c d s h h' ih => rw [ih, quotes, if_neg h, if_neg h']

/-- Behind a quote there is one string after another, and the last one is not closed. -/
theorem length_tokens_quote (width : Int32) (s : Bytes) :
    (tokens width (ch '"' :: s)).1.length = quotes s + 1 := by
  induction hn : s.length using Nat.strong_induction_on generalizing s with
  | _ n ih =>
    rw [tokens_cons (tokenStart_quote s), firstToken_string, List.length_cons]
    rcases stringEnd_head s with hend | ⟨t, hend⟩
    · have hquotes := quotes_stringEnd s
      rw [hend] at hquotes ⊢
      rw [tokens_nil tokenStart_nil, ← hquotes]
      rfl
    · have hquotes := quotes_stringEnd s
      have hshort := (stringEnd_suffix s).length_le
      rw [hend] at hquotes hshort ⊢
      rw [List.length_cons] at hshort
      rw [ih t.length (by omega) t rfl, ← hquotes, quotes_quote]

/-- What stands before a token does not end in a backslash. -/
def Unescaped (before : Bytes) : Prop := before.getLast? ≠ some (ch '\\')

theorem unescaped_nil : Unescaped [] := by simp [Unescaped]

theorem Unescaped.append_of_ne_nil {t : Bytes} (ht : Unescaped t) (hne : t ≠ []) (s : Bytes) :
    Unescaped (s ++ t) := by
  rw [Unescaped, List.getLast?_eq_some_getLast hne] at ht
  rw [Unescaped, List.getLast?_append, List.getLast?_eq_some_getLast hne, Option.some_or]
  exact ht

theorem Unescaped.append {s t : Bytes} (hs : Unescaped s) (ht : Unescaped t) :
    Unescaped (s ++ t) := by
  unfold Unescaped at *
  rw [List.getLast?_append]
  cases h : t.getLast? with
  | none => exact hs
  | some c =>
    rw [h] at ht
    exact ht

theorem Unescaped.of_cons {c : UInt8} {s : Bytes} (h : Unescaped (c :: s)) (hs : s ≠ []) :
    Unescaped s := by
  cases s with
  | nil => exact absurd rfl hs
  | cons d s => rwa [Unescaped, List.getLast?_cons_cons] at h

theorem unescaped_concat {c : UInt8} (hc : c ≠ ch '\\') (s : Bytes) : Unescaped (s ++ [c]) := by
  intro h
  rw [List.getLast?_concat] at h
  exact hc (Option.some.inj h)

/-- A quote with no backslash before it ends a string, or opens one more. -/
theorem quotes_append {before : Bytes} (h : Unescaped before) (s : Bytes) :
    quotes s < quotes (before ++ ch '"' :: s) := by
  fun_induction quotes before with
  | case1 =>
    rw [List.nil_append, quotes_quote]
    exact Nat.lt_succ_self _
  | case2 =>
    rw [List.singleton_append, quotes_quote, quotes_quote]
    omega
  | case3 c hc =>
    have hslash : c ≠ ch '\\' := fun heq => h (by rw [heq]; rfl)
    rw [List.singleton_append, quotes_cons hc hslash, quotes_quote]
    exact Nat.lt_succ_self _
  | case4 d before ih =>
    have hlt := ih (h.of_cons (List.cons_ne_nil _ _))
    rw [List.cons_append, quotes_quote]
    omega
  | case5 d before hc ih =>
    rw [List.cons_append, List.cons_append, quotes_escape]
    cases before with
    | nil => exact ih unescaped_nil
    | cons e before =>
      exact ih ((h.of_cons (List.cons_ne_nil _ _)).of_cons (List.cons_ne_nil _ _))
  | case6 c d before hc hslash ih =>
    rw [List.cons_append, quotes_cons hc hslash]
    exact ih (h.of_cons (List.cons_ne_nil _ _))

/-- The rest of a line that is skipped leaves a line end in front. -/
theorem afterLine_head (s : Bytes) : afterLine s = [] ∨ ∃ t, afterLine s = ch '\n' :: t := by
  unfold afterLine
  split
  · exact .inl rfl
  · cases h : s.dropWhile (· != ch '\n') with
    | nil => exact .inl rfl
    | cons c t =>
      have hhead := List.head?_dropWhile_not (· != ch '\n') s
      rw [h] at hhead
      simp only [List.head?_cons, bne_eq_false_iff_eq] at hhead
      exact .inr ⟨t, by rw [hhead]⟩

/-- A block comment ends in a slash, or in NUL. -/
theorem blockEnd_last {star : Bool} {s t : Bytes} (h : blockEnd star s = some t) :
    ∃ before c, s = before ++ c :: t ∧ (c = 0 ∨ c = ch '/') := by
  induction s generalizing star with
  | nil => cases h
  | cons c s ih =>
    rw [blockEnd] at h
    split at h
    · rename_i hend
      cases h
      exact ⟨[], c, rfl, hend.imp_right And.right⟩
    · obtain ⟨before, d, hs, hd⟩ := ih h
      exact ⟨c :: before, d, by rw [hs, List.cons_append], hd⟩

/-- Behind a line there is a line end before the next quote. -/
theorem unescaped_line {s line t : Bytes} (hline : afterLine line <:+ s)
    (h : ∃ before, afterLine line = before ++ ch '"' :: t ∧ Unescaped before) :
    ∃ before, s = before ++ ch '"' :: t ∧ Unescaped before := by
  obtain ⟨before, heq, hbefore⟩ := h
  obtain ⟨skipped, rfl⟩ := hline
  have hne : before ≠ [] := by
    intro hnil
    rw [hnil, List.nil_append] at heq
    rcases afterLine_head line with hl | ⟨u, hl⟩
    · rw [hl] at heq
      cases heq
    · rw [hl] at heq
      exact absurd (List.cons.inj heq).1 (by decide)
  exact ⟨skipped ++ before, by rw [heq, List.append_assoc], hbefore.append_of_ne_nil hne skipped⟩

/-- What is skipped before a token does not end in a backslash. -/
theorem unescaped_tokenStart {s t : Bytes} (h : tokenStart s = some (ch '"' :: t)) :
    ∃ before, s = before ++ ch '"' :: t ∧ Unescaped before := by
  fun_induction tokenStart s with
  | case1 => cases h
  | case2 c s hspace ih =>
    obtain ⟨before, rfl, hbefore⟩ := ih h
    have hc : c ≠ ch '\\' := ne_of_class hspace (by decide)
    exact ⟨c :: before, rfl, Unescaped.append (s := [c]) (unescaped_concat hc []) hbefore⟩
  | case3 s _ ih =>
    exact unescaped_line ((afterLine_suffix _).trans ((List.tail_suffix s).trans
      (List.suffix_cons _ s))) (ih h)
  | case4 c s _ _ _ ih =>
    exact unescaped_line ((afterLine_suffix _).trans ((List.tail_suffix s).trans
      (List.suffix_cons c s))) (ih h)
  | case5 => cases h
  | case6 c s _ _ _ _ t' ht ih =>
    obtain ⟨before, rfl, hbefore⟩ := ih h
    obtain ⟨comment, d, hcomment, hd⟩ := blockEnd_last ht
    obtain ⟨skipped, hskipped⟩ := (List.tail_suffix s).trans (List.suffix_cons c s)
    have hne : d ≠ ch '\\' := by
      intro heq
      rw [heq] at hd
      revert hd
      decide
    refine ⟨skipped ++ (comment ++ [d]) ++ before, ?_, ?_⟩
    · rw [← hskipped, hcomment]
      simp
    · refine Unescaped.append ?_ hbefore
      rw [← List.append_assoc]
      exact unescaped_concat hne _
  | case7 c s =>
    exact ⟨[], Option.some.inj h, unescaped_nil⟩

/-- Only a string is returned as one. -/
theorem quote_of_firstToken {width : Int32} {c : UInt8} {s : Bytes}
    (h : (firstToken width c s).1.kind = .ok .tStringLiteral) : c = ch '"' := by
  unfold firstToken at h
  split at h
  · exact absurd (Except.ok.inj h) (wordToken_ne_string _)
  split at h
  · rcases evalNumber_kind h with hkind | hkind
    · exact Token.noConfusion hkind
    · exact Token.noConfusion hkind
  split at h
  · assumption
  · have hkind : (munch c s).1 = .tStringLiteral := Except.ok.inj h
    have hbare := isBare_munch c s
    rw [hkind] at hbare
    exact absurd hbare (by decide)

/-- A text has the tokens it has behind a quote in one case only. -/
theorem tokens_quote_iff (width : Int32) (rest : Bytes) :
    tokens width (ch '"' :: rest) = tokens width rest ↔
      stringEnd rest = [] ∧ tokens width rest = ([.bare .tUnknown], true) := by
  have hquote : tokens width (ch '"' :: rest) = _ := tokens_cons (tokenStart_quote rest)
  rw [firstToken_string] at hquote
  constructor
  · intro heq
    rcases stringEnd_head rest with hend | ⟨t, hend⟩
    · rw [hend, tokens_nil tokenStart_nil, stringToken, if_pos hend] at hquote
      exact ⟨hend, heq.symm.trans hquote⟩
    · -- the first token is a string, so `rest` starts with one, and has more quotes than it
      rw [stringToken_closed hend] at hquote
      have hlength := length_tokens_quote width rest
      rw [hquote] at heq
      cases hstart : tokenStart rest with
      | none =>
        rw [tokens_none hstart] at heq
        cases heq
      | some u =>
        cases u with
        | nil =>
          rw [tokens_nil hstart] at heq
          cases heq
        | cons c u =>
          have hfirst := heq
          rw [tokens_cons hstart] at hfirst
          have hkind := congrArg Observed.kind (List.cons.inj (Prod.mk.inj hfirst).1).1
          have hc := quote_of_firstToken hkind.symm
          rw [hc] at hstart
          obtain ⟨before, hrest, hbefore⟩ := unescaped_tokenStart hstart
          have hmore := quotes_append hbefore u
          have hsame : tokens width (ch '"' :: u) = tokens width rest :=
            tokens_congr ((tokenStart_quote u).trans hstart.symm)
          rw [hquote, heq, ← hsame, length_tokens_quote, hrest] at hlength
          omega
  · intro hboth
    obtain ⟨hend, htokens⟩ := hboth
    rw [hquote, htokens, hend, tokens_nil tokenStart_nil, stringToken, if_pos hend]

/-! ## A literal and what follows it -/

/-- A call returns the literal with its body, and the calls behind it the tokens of the text
behind the literal. -/
def DelimitsString (lx : Lexer) (body rest : Bytes) : Prop :=
  ∃ o, Completes lx o ∧ o.1 = .ok .tStringLiteral ∧ o.2.text = body ∧
    SameTokens o.2 (fresh lx.width rest)

theorem eof_not_mem_literal {body rest : Bytes} (hbody : Ascii body) (hrest : Ascii rest) :
    EOF ∉ ch '"' :: (body ++ ch '"' :: rest) := by
  have hquote : EOF ≠ ch '"' := by decide
  simp [hquote, eof_not_mem hbody, eof_not_mem hrest]

/-- A string literal is delimited correctly if and only if what follows it is a single token the
lexer does not know, without a quote that is not escaped. -/
theorem delimitsString_iff {lx : Lexer} {body rest : Bytes} (hbody : isStringBody body = true)
    (hascii : Ascii body) (hrest : Ascii rest)
    (h : StartsAt lx (ch '"' :: (body ++ ch '"' :: rest))) :
    DelimitsString lx body rest ↔
      stringEnd rest = [] ∧ tokens lx.width rest = ([.bare .tUnknown], true) := by
  obtain ⟨o, ho, hkind, htext, hclean, hwidth, hpending⟩ :=
    exists_completes_string hbody (eof_not_mem_literal hascii hrest) h
  have hsame : SameTokens o.2 (fresh lx.width rest) ↔
      tokens lx.width (ch '"' :: rest) = tokens lx.width rest := by
    rw [sameTokens_fresh hclean (eof_not_mem hrest), hwidth, hpending]
  rw [← tokens_quote_iff, ← hsame]
  constructor
  · intro hdelimits
    obtain ⟨o', ho', _, _, hsame'⟩ := hdelimits
    rwa [ho'.unique ho] at hsame'
  · intro hsame'
    exact ⟨o, ho, hkind, htext, hsame'⟩

theorem delimitsString_iff_dollar :
    DelimitsString (start (str "\"a\\\"b\" $")) (str "a\\\"b") (str " $") ↔
      stringEnd (str " $") = [] ∧ tokens 32 (str " $") = ([.bare .tUnknown], true) :=
  delimitsString_iff (by decide) (by decide) (by decide) (startsAt_start (str "\"a\\\"b\" $"))

/-- Behind the literal of `"a";` no semicolon is returned. -/
theorem not_delimitsString_semicolon :
    StartsAt (start (str "\"a\";")) (ch '"' :: (str "a" ++ ch '"' :: str ";")) ∧
      ¬DelimitsString (start (str "\"a\";")) (str "a") (str ";") := by
  have hstarts : StartsAt (start (str "\"a\";")) (ch '"' :: (str "a" ++ ch '"' :: str ";")) :=
    startsAt_start (str "\"a\";")
  refine ⟨hstarts, ?_⟩
  intro hdelimits
  obtain ⟨o, ho, _, _, hsame⟩ := hdelimits
  have hbody : isStringBody (str "a") = true := by decide
  have hne : EOF ∉ ch '"' :: (str "a" ++ ch '"' :: str ";") := by decide
  obtain ⟨o', ho', _, _, hclean, hwidth, hpending⟩ := exists_completes_string hbody hne hstarts
  rw [ho.unique ho', sameTokens_fresh hclean (by decide), hwidth, hpending] at hsame
  revert hsame
  decide +kernel

end Lexer

end P4LS
