import P4LS.Slex.Grammar
import P4LS.Slex.Syntax

/-!
# The texts that the grammar accepts

The actions of an alternative that fails later are not undone, so a stack may hold nodes of parts
that were given up.  That happens only where the text goes on with a parenthesis or a bar that
nothing can read any more.  If the whole text is read the stack holds the tree of an expression that
is written so, or, with the operator `/`, two of them.
-/

namespace P4LS.Slex

open Bytes Rule

namespace Spirit

variable (spirit : Spirit)

/-- The rule reads the text where it stands before some other. -/
def Matches (rule : LexerRule) (u : Text) : Prop :=
  ∃ rest stack, rule (u ++ rest) stack = .ok (some rest, stack)

/-- The text is read as a leaf, with the node that its action makes. -/
inductive IsLeaf : Text → Node → Prop
  | any : IsLeaf [ch '.'] (createNodes anyChar)
  | ccl {n : ℕ} {x : Text} {node : Node} : Matches (spirit.bracketed n) x →
      readCcl spirit x = .ok node → IsLeaf x node
  | string {n : ℕ} {x : Text} {node : Node} : Matches (spirit.quoted n) x →
      readString spirit x = .ok node → IsLeaf x node
  | char {x : Text} {node : Node} : Matches spirit.plainChar x →
      readChar spirit x = .ok node → IsLeaf x node

/-- The text is that of an expression and some rest, and the tree is pushed. -/
def Built (l : Level) (x rest : Text) (stack stack' : NodeStack) : Prop :=
  ∃ r : Regex l, r.Over spirit.IsLeaf (2 ^ 32) ∧ x = r.text ++ rest ∧ stack' = r.tree :: stack

end Spirit

variable {spirit : Spirit} {x u rest : Text} {stack stack' : NodeStack} {n : ℕ}

/-! ## The rules without actions -/

theorem inert_chP (c : Char) : (chP c).Inert := .ofReader _

theorem reads_chP (c : Char) : (chP c).Reads := .one _

theorem inert_escseq : spirit.escseq.Inert :=
  (inert_chP _).andThen ((Inert.ofReader _).orElse
    (((Inert.ofReader _).andThen (.ofReader _)).orElse (.ofReader _)))

theorem inert_string : (spirit.string n).Inert :=
  ((Inert.ofReader _).orElse inert_escseq).andThen
    (((Inert.ofReader _).orElse inert_escseq).many _ _)

theorem inert_quoted : (spirit.quoted n).Inert :=
  (inert_chP _).andThen (inert_string.andThen (inert_chP _))

theorem inert_cclChar : spirit.cclChar.Inert := (Inert.ofReader _).orElse inert_escseq

theorem inert_bracketed : (spirit.bracketed n).Inert :=
  (inert_chP _).andThen ((inert_chP _).optional.andThen
    ((((Inert.ofReader _).orElse (inert_cclChar.andThen
      ((inert_chP _).andThen inert_cclChar).optional)).many _ _).andThen (inert_chP _)))

theorem inert_plainChar : spirit.plainChar.Inert := (Inert.ofReader _).orElse inert_escseq

theorem inert_uintP : spirit.uintP.Inert := .ofReader _

theorem inert_repeat1 : spirit.repeat1.Inert :=
  (inert_chP _).andThen (inert_uintP.andThen (inert_chP _))

theorem inert_repeat2 : spirit.repeat2.Inert :=
  (inert_chP _).andThen (inert_uintP.andThen ((inert_chP _).andThen (inert_chP _)))

theorem inert_repeat3 : spirit.repeat3.Inert :=
  (inert_chP _).andThen (inert_uintP.andThen
    ((inert_chP _).andThen (inert_uintP.andThen (inert_chP _))))

section

variable (h : spirit.Documented)

include h

theorem reads_escseq : spirit.escseq.Reads :=
  (reads_chP _).andThen ((Reads.ofReader h.octParser_reads).orElse
    (((Reads.one _).andThen (.ofReader h.hexParser_reads)).orElse (.one _)))

theorem reads_string : (spirit.string n).Reads :=
  ((Reads.one _).orElse (reads_escseq h)).andThen (((Reads.one _).orElse (reads_escseq h)).many _ _)

theorem reads_quoted : (spirit.quoted n).Reads :=
  (reads_chP _).andThen ((reads_string h).andThen (reads_chP _))

theorem reads_cclChar : spirit.cclChar.Reads := (Reads.one _).orElse (reads_escseq h)

omit h in
theorem reads_cclExpr : Spirit.cclExpr.Reads := by
  refine Reads.ofReader fun x rest hfind => ?_
  obtain ⟨name, _, rfl⟩ := Option.map_eq_some_iff.mp hfind
  exact List.drop_suffix _ _

theorem reads_bracketed : (spirit.bracketed n).Reads :=
  (reads_chP _).andThen ((reads_chP _).optional.andThen
    (((reads_cclExpr.orElse ((reads_cclChar h).andThen
      ((reads_chP _).andThen (reads_cclChar h)).optional)).many _ _).andThen (reads_chP _)))

theorem reads_plainChar : spirit.plainChar.Reads := (Reads.one _).orElse (reads_escseq h)

theorem uintParser_append {digits : Text} (hne : digits ≠ [])
    (hdigits : ∀ c ∈ digits, isdigit c = true) (hlt : digitsValue 10 digits 0 < 2 ^ 32)
    (hrest : ∀ c ∈ rest.head?, isdigit c = false) :
    spirit.uintParser (digits ++ rest) = some (digitsValue 10 digits 0, rest) := by
  have htake : (digits ++ rest).takeWhile isdigit = digits := by
    rw [List.takeWhile_append_of_pos hdigits]
    cases rest with
    | nil => rw [List.takeWhile_nil, List.append_nil]
    | cons c rest =>
      rw [List.takeWhile_cons_of_neg (by rw [hrest c rfl]; exact Bool.false_ne_true),
        List.append_nil]
  have hdrop : (digits ++ rest).dropWhile isdigit = rest := by
    rw [List.dropWhile_append_of_pos hdigits]
    cases rest with
    | nil => rfl
    | cons c rest =>
      rw [List.dropWhile_cons_of_neg (by rw [hrest c rfl]; exact Bool.false_ne_true)]
  rw [h.uintParser_eq, htake, hdrop, if_neg (fun hbad => hbad.elim hne (Nat.not_le_of_lt hlt))]

/-- A number that is read is a numeral. -/
theorem uintP_eq_hit (hread : spirit.uintP x stack = .ok (some rest, stack')) :
    ∃ count : Numeral, count.Reads (2 ^ 32) ∧ x = count.digits ++ rest := by
  have hmap : (spirit.uintParser x).map Prod.snd = some rest :=
    congrArg Prod.fst (Except.ok.inj hread)
  obtain ⟨⟨v, rest⟩, hsome, rfl⟩ := Option.map_eq_some_iff.mp hmap
  rw [h.uintParser_eq] at hsome
  split at hsome
  · cases hsome
  · rename_i hgood
    rw [not_or, Nat.not_le] at hgood
    cases hsome
    exact ⟨⟨x.takeWhile isdigit, _⟩,
      ⟨hgood.1, fun c hc => List.mem_takeWhile_imp hc, rfl, hgood.2⟩,
      List.takeWhile_append_dropWhile.symm⟩

/-- A numeral that a character follows is read as its number. -/
theorem Numeral.Reads.uintParser {count : Numeral} (hcount : count.Reads (2 ^ 32))
    (hrest : ∀ c ∈ rest.head?, isdigit c = false) :
    spirit.uintParser (count.digits ++ rest) = some (count.value, rest) := by
  rw [uintParser_append h hcount.nonempty hcount.digit
    (hcount.value_eq.trans_lt hcount.lt) hrest, hcount.value_eq]

/-! ## The repetitions -/

omit h in
theorem chP_eq_hit {c : Char} (hread : chP c x stack = .ok (some rest, stack')) :
    x = ch c :: rest ∧ stack' = stack := by
  obtain ⟨d, rfl, hd, rfl⟩ := one_eq_ok hread
  exact ⟨by rw [eq_of_beq hd], rfl⟩

omit h in
theorem chP_read {c : Char} (hread : chP c x stack = .ok (some rest, stack'))
    (hx : x = u ++ rest) : u = [ch c] := by
  obtain ⟨hx', _⟩ := chP_eq_hit hread
  rw [hx, ← List.singleton_append] at hx'
  exact List.append_cancel_right hx'

theorem repeat1_eq_hit (hread : spirit.repeat1 x stack = .ok (some rest, stack')) :
    ∃ count : Numeral, count.Reads (2 ^ 32) ∧
      x = (ch '\x7b' :: (count.digits ++ [ch '\x7d'])) ++ rest := by
  obtain ⟨_, _, hopen, hread⟩ := andThen_eq_hit hread
  obtain ⟨_, _, hnumber, hclose⟩ := andThen_eq_hit hread
  obtain ⟨rfl, _⟩ := chP_eq_hit hopen
  obtain ⟨count, hcount, rfl⟩ := uintP_eq_hit h hnumber
  obtain ⟨rfl, _⟩ := chP_eq_hit hclose
  exact ⟨count, hcount, by simp⟩

theorem repeat2_eq_hit (hread : spirit.repeat2 x stack = .ok (some rest, stack')) :
    ∃ count : Numeral, count.Reads (2 ^ 32) ∧
      x = (ch '\x7b' :: (count.digits ++ [ch ',', ch '\x7d'])) ++ rest := by
  obtain ⟨_, _, hopen, hread⟩ := andThen_eq_hit hread
  obtain ⟨_, _, hnumber, hread⟩ := andThen_eq_hit hread
  obtain ⟨_, _, hcomma, hclose⟩ := andThen_eq_hit hread
  obtain ⟨rfl, _⟩ := chP_eq_hit hopen
  obtain ⟨count, hcount, rfl⟩ := uintP_eq_hit h hnumber
  obtain ⟨rfl, _⟩ := chP_eq_hit hcomma
  obtain ⟨rfl, _⟩ := chP_eq_hit hclose
  exact ⟨count, hcount, by simp⟩

theorem repeat3_eq_hit (hread : spirit.repeat3 x stack = .ok (some rest, stack')) :
    ∃ count1 count2 : Numeral, count1.Reads (2 ^ 32) ∧ count2.Reads (2 ^ 32) ∧
      x = (ch '\x7b' :: (count1.digits ++ ch ',' :: (count2.digits ++ [ch '\x7d']))) ++ rest := by
  obtain ⟨_, _, hopen, hread⟩ := andThen_eq_hit hread
  obtain ⟨_, _, hnumber1, hread⟩ := andThen_eq_hit hread
  obtain ⟨_, _, hcomma, hread⟩ := andThen_eq_hit hread
  obtain ⟨_, _, hnumber2, hclose⟩ := andThen_eq_hit hread
  obtain ⟨rfl, _⟩ := chP_eq_hit hopen
  obtain ⟨count1, hcount1, rfl⟩ := uintP_eq_hit h hnumber1
  obtain ⟨rfl, _⟩ := chP_eq_hit hcomma
  obtain ⟨count2, hcount2, rfl⟩ := uintP_eq_hit h hnumber2
  obtain ⟨rfl, _⟩ := chP_eq_hit hclose
  exact ⟨count1, count2, hcount1, hcount2, by simp⟩

variable {count count1 count2 : Numeral} {topNode : Node}

theorem makeRep1_numeral (hcount : count.Reads (2 ^ 32)) :
    makeRep1 spirit (ch '\x7b' :: (count.digits ++ [ch '\x7d'])) (topNode :: stack) =
      if count.value = 0 then .error .badRegex
      else .ok (repeatNode topNode count.value :: stack) := by
  rw [makeRep1, if_neg (fun hne => hne rfl),
    hcount.uintParser h (by intro c hc; cases hc; decide)]

theorem makeRep2_numeral (hcount : count.Reads (2 ^ 32)) :
    makeRep2 spirit (ch '\x7b' :: (count.digits ++ [ch ',', ch '\x7d'])) (topNode :: stack) =
      if count.value = 0 then .error .badRegex
      else .ok (.catNode (repeatNode topNode count.value) (.starNode topNode) :: stack) := by
  rw [makeRep2, if_neg (fun hne => hne rfl),
    hcount.uintParser h (by intro c hc; cases hc; decide)]

theorem makeRep3_numeral (hcount1 : count1.Reads (2 ^ 32)) (hcount2 : count2.Reads (2 ^ 32)) :
    makeRep3 spirit (ch '\x7b' :: (count1.digits ++ ch ',' :: (count2.digits ++ [ch '\x7d'])))
        (topNode :: stack) =
      if count1.value = 0 then .error .badRegex
      else if count2.value ≤ count1.value then .error .badRegex
      else .ok (.catNode (repeatNode topNode count1.value)
        (repeatNode (optionalNode topNode) (count2.value - count1.value)) :: stack) := by
  have hlast : spirit.uintParser (count2.digits ++ [ch '\x7d']) =
      some (count2.value, [ch '\x7d']) :=
    hcount2.uintParser h (by intro c hc; cases hc; decide)
  rw [makeRep3, if_neg (fun hne => hne rfl),
    hcount1.uintParser h (by intro c hc; cases hc; decide)]
  simp only [List.tail_cons, hlast]

/-! ## The operators behind a part -/

omit h in
/-- The operators may be none. -/
theorem singleton2_ne_miss (n : ℕ) (x : Text) (stack stack' : NodeStack) :
    spirit.singleton2 n x stack ≠ .ok (none, stack') := by
  intro hmiss
  cases n with
  | zero => cases hmiss
  | succ n =>
    obtain ⟨_, _, hmiss⟩ := orElse_eq_miss hmiss
    obtain ⟨_, _, hmiss⟩ := orElse_eq_miss hmiss
    obtain ⟨_, _, hmiss⟩ := orElse_eq_miss hmiss
    obtain ⟨_, _, hmiss⟩ := orElse_eq_miss hmiss
    obtain ⟨_, _, hmiss⟩ := orElse_eq_miss hmiss
    obtain ⟨_, _, hmiss⟩ := orElse_eq_miss hmiss
    cases hmiss

theorem reads_repeat1 : spirit.repeat1.Reads := fun x s rest s' hread => by
  obtain ⟨count, _, rfl⟩ := repeat1_eq_hit h hread
  exact List.suffix_append _ _

theorem reads_repeat2 : spirit.repeat2.Reads := fun x s rest s' hread => by
  obtain ⟨count, _, rfl⟩ := repeat2_eq_hit h hread
  exact List.suffix_append _ _

theorem reads_repeat3 : spirit.repeat3.Reads := fun x s rest s' hread => by
  obtain ⟨count1, count2, _, _, rfl⟩ := repeat3_eq_hit h hread
  exact List.suffix_append _ _

/-- Behind a part the operators make an expression of it. -/
theorem singleton2_built {r : Regex .singleton} (hr : r.Over spirit.IsLeaf (2 ^ 32))
    (hread : spirit.singleton2 n x (r.tree :: stack) = .ok (some rest, stack')) :
    spirit.Built .singleton (r.text ++ x) rest stack stack' := by
  induction n generalizing x r with
  | zero => cases hread
  | succ n ih =>
    have hnext : ∀ (r' : Regex .singleton) {u rest₁ : Text}, x = u ++ rest₁ →
        r'.Over spirit.IsLeaf (2 ^ 32) → r'.text = r.text ++ u →
        spirit.singleton2 n rest₁ (r'.tree :: stack) = .ok (some rest, stack') →
        spirit.Built .singleton (r.text ++ x) rest stack stack' := by
      intro r' u rest₁ hx hr' htext hread'
      have hbuilt := ih hr' hread'
      rwa [htext, List.append_assoc, ← hx] at hbuilt
    rw [Spirit.singleton2] at hread
    -- One case for each operator, in the order of the alternatives.
    rcases alternative_eq_ok (inert_chP _) (reads_chP _) (singleton2_ne_miss n) hread with
      ⟨u, rest₁, s₁, hx, hrule, hact, hread⟩ | hread
    · cases chP_read hrule hx
      cases hact
      exact hnext (.star r) hx hr rfl hread
    rcases alternative_eq_ok (inert_chP _) (reads_chP _) (singleton2_ne_miss n) hread with
      ⟨u, rest₁, s₁, hx, hrule, hact, hread⟩ | hread
    · cases chP_read hrule hx
      cases hact
      exact hnext (.plus r) hx hr rfl hread
    rcases alternative_eq_ok (inert_chP _) (reads_chP _) (singleton2_ne_miss n) hread with
      ⟨u, rest₁, s₁, hx, hrule, hact, hread⟩ | hread
    · cases chP_read hrule hx
      cases hact
      exact hnext (.optional r) hx hr rfl hread
    rcases alternative_eq_ok inert_repeat1 (reads_repeat1 h) (singleton2_ne_miss n) hread with
      ⟨u, rest₁, s₁, hx, hrule, hact, hread⟩ | hread
    · obtain ⟨count, hcount, hx'⟩ := repeat1_eq_hit h hrule
      rw [hx] at hx'
      cases List.append_cancel_right hx'
      rw [makeRep1_numeral h hcount] at hact
      split at hact
      · cases hact
      · rename_i hzero
        cases hact
        exact hnext (.rep1 r count) hx ⟨hr, hcount, hzero⟩ rfl hread
    rcases alternative_eq_ok inert_repeat2 (reads_repeat2 h) (singleton2_ne_miss n) hread with
      ⟨u, rest₁, s₁, hx, hrule, hact, hread⟩ | hread
    · obtain ⟨count, hcount, hx'⟩ := repeat2_eq_hit h hrule
      rw [hx] at hx'
      cases List.append_cancel_right hx'
      rw [makeRep2_numeral h hcount] at hact
      split at hact
      · cases hact
      · rename_i hzero
        cases hact
        exact hnext (.rep2 r count) hx ⟨hr, hcount, hzero⟩ rfl hread
    rcases alternative_eq_ok inert_repeat3 (reads_repeat3 h) (singleton2_ne_miss n) hread with
      ⟨u, rest₁, s₁, hx, hrule, hact, hread⟩ | hread
    · obtain ⟨count1, count2, hcount1, hcount2, hx'⟩ := repeat3_eq_hit h hrule
      rw [hx] at hx'
      cases List.append_cancel_right hx'
      rw [makeRep3_numeral h hcount1 hcount2] at hact
      split at hact
      · cases hact
      · rename_i hzero
        split at hact
        · cases hact
        · rename_i hle
          cases hact
          exact hnext (.rep3 r count1 count2) hx
            ⟨hr, hcount1, hcount2, hzero, Nat.lt_of_not_le hle⟩ rfl hread
    · cases hread
      exact ⟨r, hr, rfl, rfl⟩

/-! ## The parts -/

omit h in
theorem push_eq_ok {make : Text → Except Failure Node} (hact : push make u stack = .ok stack') :
    ∃ node, make u = .ok node ∧ stack' = node :: stack := by
  obtain ⟨node, hnode, rfl⟩ := Except.map_eq_ok.mp hact
  exact ⟨node, hnode, rfl⟩

/-- What a rule without actions reads it reads before other texts. -/
theorem leaf_built {rule : LexerRule} {make : Text → Except Failure Node}
    (hleaf : ∀ node, rule (u ++ rest) stack = .ok (some rest, stack) → make u = .ok node →
      spirit.IsLeaf u node) {s₁ : NodeStack} {last : Text}
    (hrule : rule (u ++ rest) stack = .ok (some rest, stack)) (hact : push make u stack = .ok s₁)
    (hread : spirit.singleton2 n rest s₁ = .ok (some last, stack')) :
    spirit.Built .singleton (u ++ rest) last stack stack' := by
  obtain ⟨node, hnode, rfl⟩ := push_eq_ok hact
  exact singleton2_built h (r := .leaf u node) (hleaf node hrule hnode) hread

omit h in
theorem head?_ne {c d : UInt8} (hne : c ≠ d) : (c :: x).head? ≠ some d := fun heq =>
  hne (Option.some.inj heq)

omit h in
theorem plainChar_paren (stack : NodeStack) :
    spirit.plainChar (ch '(' :: x) stack = .ok (none, stack) :=
  (orElse_of_miss (one_miss (by intro c hc; cases hc; decide))).trans
    (andThen_of_miss (one_miss (by intro c hc; cases hc; decide)))

omit h in
theorem plainChar_dollar (stack : NodeStack) :
    spirit.plainChar (ch '$' :: x) stack = .ok (some x, stack) :=
  orElse_of_hit (one_cons (by decide))

variable {re : LexerRule}

/-- A part that is read is pushed as its tree. -/
theorem singleton_built
    (hre : ∀ {x y : Text} {s s' : NodeStack}, re x s = .ok (some (ch ')' :: y), s') →
      spirit.Built .re x (ch ')' :: y) s s')
    (hread : spirit.singleton re n x stack = .ok (some rest, stack')) :
    spirit.Built .singleton x rest stack stack' := by
  rw [Spirit.singleton] at hread
  rcases alternative_eq_ok (inert_chP _) (reads_chP _) (singleton2_ne_miss n) hread with
    ⟨u, rest₁, s₁, rfl, hrule, hact, hread⟩ | hread
  · refine leaf_built h (fun node hrule hnode => ?_) hrule hact hread
    cases chP_read hrule rfl
    cases hnode
    exact .any
  rcases alternative_eq_ok inert_bracketed (reads_bracketed h) (singleton2_ne_miss n) hread with
    ⟨u, rest₁, s₁, rfl, hrule, hact, hread⟩ | hread
  · exact leaf_built h (fun node hrule hnode => .ccl ⟨_, _, hrule⟩ hnode) hrule hact hread
  rcases alternative_eq_ok inert_quoted (reads_quoted h) (singleton2_ne_miss n) hread with
    ⟨u, rest₁, s₁, rfl, hrule, hact, hread⟩ | hread
  · exact leaf_built h (fun node hrule hnode => .string ⟨_, _, hrule⟩ hnode) hrule hact hread
  rcases orElse_eq_ok hread with ⟨hread, _⟩ | ⟨s₁, hmiss, hread⟩
  · obtain ⟨_, _, hopen, hread⟩ := andThen_eq_hit hread
    obtain ⟨_, _, hinner, hread⟩ := andThen_eq_hit hread
    obtain ⟨y, _, hclose, hread⟩ := andThen_eq_hit hread
    obtain ⟨rfl, rfl⟩ := chP_eq_hit hopen
    obtain ⟨rfl, rfl⟩ := chP_eq_hit hclose
    obtain ⟨r, hr, rfl, rfl⟩ := hre hinner
    have hbuilt := singleton2_built h (r := .group r) hr hread
    rwa [Regex.text, List.cons_append, List.append_assoc] at hbuilt
  · obtain ⟨_, s₂, haction, hops⟩ := andThen_eq_hit hread
    obtain ⟨u, s₃, rfl, hrule, hact⟩ := (reads_plainChar h).action_eq_hit haction
    cases inert_plainChar _ _ _ _ hrule
    rcases andThen_eq_miss hmiss with hopen | ⟨_, _, hopen, _⟩
    · cases inert_chP _ _ _ _ _ hopen
      exact leaf_built h (fun node hrule hnode => .char ⟨_, _, hrule⟩ hnode) hrule hact hops
    · -- Nothing but the group reads a parenthesis.
      obtain ⟨hx, _⟩ := chP_eq_hit hopen
      rw [hx, plainChar_paren] at hrule
      cases hrule

/-- Where no part is read nothing is pushed, unless a parenthesis stands there. -/
theorem singleton_miss (hread : spirit.singleton re n x stack = .ok (none, stack')) :
    (x.head? ≠ some (ch '(') → stack' = stack) ∧ x.head? ≠ some (ch '$') := by
  rw [Spirit.singleton] at hread
  rcases alternative_eq_ok (inert_chP _) (reads_chP _) (singleton2_ne_miss n) hread with
    ⟨u, rest₁, s₁, rfl, hrule, hact, hread⟩ | hread
  · exact absurd hread (singleton2_ne_miss n _ _ _)
  rcases alternative_eq_ok inert_bracketed (reads_bracketed h) (singleton2_ne_miss n) hread with
    ⟨u, rest₁, s₁, rfl, hrule, hact, hread⟩ | hread
  · exact absurd hread (singleton2_ne_miss n _ _ _)
  rcases alternative_eq_ok inert_quoted (reads_quoted h) (singleton2_ne_miss n) hread with
    ⟨u, rest₁, s₁, rfl, hrule, hact, hread⟩ | hread
  · exact absurd hread (singleton2_ne_miss n _ _ _)
  obtain ⟨s₁, hmiss, hread⟩ := orElse_eq_miss hread
  have hlast : spirit.plainChar x s₁ = .ok (none, stack') := by
    rcases andThen_eq_miss hread with haction | ⟨_, _, _, hnone⟩
    · exact action_eq_miss haction
    · exact absurd hnone (singleton2_ne_miss n _ _ _)
  refine ⟨fun hx => ?_, fun hx => ?_⟩
  · rcases andThen_eq_miss hmiss with hopen | ⟨_, _, hopen, _⟩
    · rw [inert_plainChar _ _ _ _ hlast, inert_chP _ _ _ _ _ hopen]
    · obtain ⟨rfl, _⟩ := chP_eq_hit hopen
      exact absurd rfl hx
  · obtain ⟨y, rfl⟩ := List.head?_eq_some_iff.mp hx
    rw [plainChar_dollar] at hlast
    cases hlast

/-- A series that is read is pushed as one tree, unless the text goes on with a parenthesis. -/
theorem series_built
    (hre : ∀ {x y : Text} {s s' : NodeStack}, re x s = .ok (some (ch ')' :: y), s') →
      spirit.Built .re x (ch ')' :: y) s s')
    (hread : spirit.series re n x stack = .ok (some rest, stack')) :
    (rest.head? ≠ some (ch '(') → spirit.Built .series x rest stack stack') ∧
      rest.head? ≠ some (ch '$') := by
  obtain ⟨rest₁, s₁, hfirst, hmany⟩ := andThen_eq_hit hread
  obtain ⟨r, hr, hx, rfl⟩ := singleton_built h hre hfirst
  obtain ⟨last, s₂, hlast, ⟨r', hr', hx', rfl⟩, hmiss⟩ :=
    many_induction (fun y s => spirit.Built .series x y stack s)
      (by
        rintro y s y' s' ⟨r, hr, hy, rfl⟩ haction
        obtain ⟨s₁, hsingleton, hact⟩ := action_eq_hit haction
        obtain ⟨r', hr', hy', rfl⟩ := singleton_built h hre hsingleton
        cases hact
        exact ⟨.concat r r', ⟨hr, hr'⟩, by rw [hy, hy', Regex.text, List.append_assoc], rfl⟩)
      hmany ⟨.single r, hr, hx, rfl⟩
  cases hlast
  obtain ⟨hstack, hdollar⟩ := singleton_miss h (action_eq_miss hmiss)
  exact ⟨fun hrest => ⟨r', hr', hx', hstack hrest⟩, hdollar⟩

/-- An expression that is read is pushed as one tree, unless the text goes on with a parenthesis or
a bar. -/
theorem re_built (hread : spirit.re n x stack = .ok (some rest, stack')) :
    (rest.head? ≠ some (ch '(') → rest.head? ≠ some (ch '|') →
      spirit.Built .re x rest stack stack') ∧ rest.head? ≠ some (ch '$') := by
  induction n generalizing x rest stack stack' with
  | zero => cases hread
  | succ n ih =>
    have hre : ∀ {x y : Text} {s s' : NodeStack},
        spirit.re n x s = .ok (some (ch ')' :: y), s') →
        spirit.Built .re x (ch ')' :: y) s s' := fun hread =>
      (ih hread).1 (head?_ne (by decide)) (head?_ne (by decide))
    obtain ⟨rest₁, s₁, hfirst, hmany⟩ := andThen_eq_hit hread
    obtain ⟨hbuilt, hdollar⟩ := series_built h hre hfirst
    -- A stack with nodes that were given up has a parenthesis in front of it, which ends the loop.
    obtain ⟨last, s₂, hlast, ⟨hbuilt', hdollar'⟩, hmiss⟩ :=
      many_induction
        (fun y s => (y.head? ≠ some (ch '(') → spirit.Built .re x y stack s) ∧
          y.head? ≠ some (ch '$'))
        (by
          rintro y s y' s' ⟨hy, _⟩ haction
          obtain ⟨s₁, hboth, hact⟩ := action_eq_hit haction
          obtain ⟨y₁, s₂, hbar, hseries⟩ := andThen_eq_hit hboth
          obtain ⟨rfl, rfl⟩ := chP_eq_hit hbar
          obtain ⟨hbuilt', hdollar'⟩ := series_built h hre hseries
          refine ⟨fun hy' => ?_, hdollar'⟩
          obtain ⟨r, hr, hx, rfl⟩ := hy (head?_ne (by decide))
          obtain ⟨r', hr', hx', rfl⟩ := hbuilt' hy'
          cases hact
          exact ⟨.or r r', ⟨hr, hr'⟩, by
            rw [hx, hx', Regex.text, List.append_assoc, List.cons_append], rfl⟩)
        hmany
        ⟨fun hrest => by
          obtain ⟨r, hr, hx, rfl⟩ := hbuilt hrest
          exact ⟨.only r, hr, hx, rfl⟩, hdollar⟩
    cases hlast
    refine ⟨fun hparen hbar => ?_, hdollar'⟩
    rcases andThen_eq_miss (action_eq_miss hmiss) with hmiss | ⟨_, _, hhit, _⟩
    · rw [inert_chP _ _ _ _ _ hmiss]
      exact hbuilt' hparen
    · obtain ⟨rfl, _⟩ := chP_eq_hit hhit
      exact absurd rfl hbar

/-- What is on the stack when the whole text is read. -/
theorem regex_built (hread : spirit.regex n x [] = .ok (some [], stack)) :
    (∃ r : Regex .re, r.Over spirit.IsLeaf (2 ^ 32) ∧ x = r.text ∧ stack = [r.tree]) ∨
      ∃ r s : Regex .re, r.Over spirit.IsLeaf (2 ^ 32) ∧ s.Over spirit.IsLeaf (2 ^ 32) ∧
        x = r.text ++ ch '/' :: s.text ∧ stack = [s.tree, r.tree] := by
  obtain ⟨rest₁, s₁, hfirst, hread⟩ := andThen_eq_hit hread
  obtain ⟨rest₂, s₂, hslash, hend⟩ := andThen_eq_hit hread
  obtain ⟨hbuilt, hdollar⟩ := re_built h hfirst
  have hrest₂ : rest₂.head? ≠ some (ch '$') := by
    rcases optional_eq_ok hslash with ⟨_, hsome, hslash⟩ | ⟨hsome, _⟩
    · cases hsome
      obtain ⟨_, _, _, hsecond⟩ := andThen_eq_hit hslash
      exact (re_built h hsecond).2
    · cases hsome
      exact hdollar
  have hnil : rest₂ = [] ∧ stack = s₂ := by
    rcases optional_eq_ok hend with ⟨_, hsome, hhit⟩ | ⟨hsome, hmiss⟩
    · obtain ⟨rfl, _⟩ := chP_eq_hit hhit
      exact absurd rfl hrest₂
    · cases hsome
      exact ⟨rfl, inert_chP _ _ _ _ _ hmiss⟩
  obtain ⟨rfl, rfl⟩ := hnil
  rcases optional_eq_ok hslash with ⟨_, hsome, hslash⟩ | ⟨hsome, hmiss⟩
  · cases hsome
    obtain ⟨y, s₂, hhit, hsecond⟩ := andThen_eq_hit hslash
    obtain ⟨rfl, rfl⟩ := chP_eq_hit hhit
    obtain ⟨r, hr, hx, rfl⟩ := hbuilt (head?_ne (by decide)) (head?_ne (by decide))
    obtain ⟨s, hs, hy, rfl⟩ := (re_built h hsecond).1 (by decide) (by decide)
    rw [List.append_nil] at hy
    exact .inr ⟨r, s, hr, hs, hy ▸ hx, rfl⟩
  · cases hsome
    obtain ⟨r, hr, hx, rfl⟩ := hbuilt (by decide) (by decide)
    rw [List.append_nil] at hx
    rcases andThen_eq_miss hmiss with hmiss | ⟨_, _, hhit, _⟩
    · exact .inl ⟨r, hr, hx, inert_chP _ _ _ _ _ hmiss⟩
    · obtain ⟨hslash, _⟩ := chP_eq_hit hhit
      cases hslash

/-- A text that the grammar accepts is that of an expression, and the tree is that of the
expression. -/
theorem lexerGrammar_built {tree : Node} (haccept : spirit.lexerGrammar x = .ok (some tree)) :
    ∃ r : Regex .re, r.Over spirit.IsLeaf (2 ^ 32) ∧ x = r.text ∧ tree = r.tree := by
  rw [Spirit.lexerGrammar] at haccept
  split at haccept
  · cases haccept
  · rename_i hread
    cases haccept
    rcases regex_built h hread with ⟨r, hr, hx, hstack⟩ | ⟨r, s, _, _, _, hstack⟩
    · cases hstack
      exact ⟨r, hr, hx, rfl⟩
    · cases hstack
  · cases haccept
  · cases haccept

end

theorem lexerGrammar_built_ab : ∃ r : Regex .re, r.Over plainSpirit.IsLeaf (2 ^ 32) ∧
    str "ab*" = r.text ∧
      Node.catNode (.charNode (ch 'a') 0) (.starNode (.charNode (ch 'b') 0)) = r.tree :=
  lexerGrammar_built plainSpirit_documented rfl

end P4LS.Slex
