import P4LS.Slex.Written

/-!
# Reading what was written

Each rule, put in front of the text of an expression of its level, comes to the loop behind the
text with the tree of the expression on the stack.  The induction is over the expression; a part
that an operator, another part or a bar follows is the case of the rule that reads on.
-/

namespace P4LS.Slex

open Bytes Rule

/-- The text goes on with a part. -/
def Begins (x : Text) : Prop :=
  ∃ c y, x = c :: y ∧ c ∉ ['*', '+', '?', '{', '|', ')'].map ch

/-- No operator follows. -/
def NoOperator (x : Text) : Prop := ∀ c ∈ x.head?, c ∉ ['*', '+', '?', '{'].map ch

/-- Nothing follows that belongs to an alternative. -/
def Stops (x : Text) : Prop := ∀ c ∈ x.head?, c = ch '|' ∨ c = ch ')'

theorem Begins.append {x : Text} (h : Begins x) (y : Text) : Begins (x ++ y) := by
  obtain ⟨c, z, rfl, hc⟩ := h
  exact ⟨c, z ++ y, List.cons_append, hc⟩

theorem Begins.noOperator {x : Text} (h : Begins x) : NoOperator x := by
  obtain ⟨c, y, rfl, hc⟩ := h
  intro d hd hmem
  cases hd
  exact hc (List.map_subset ch (List.subset_append_left ['*', '+', '?', '{'] ['|', ')']) hmem)

theorem Stops.noOperator {x : Text} (h : Stops x) : NoOperator x := by
  intro c hc hmem
  rcases h c hc with rfl | rfl <;> exact absurd hmem (by decide)

theorem NoOperator.head?_ne {x : Text} (h : NoOperator x) {c : Char}
    (hc : c ∈ ['*', '+', '?', '{']) : x.head? ≠ some (ch c) := fun heq =>
  h _ heq (List.mem_map_of_mem hc)

theorem Stops.head?_ne {x : Text} (h : Stops x) {c : Char} (hbar : ch c ≠ ch '|')
    (hparen : ch c ≠ ch ')') : x.head? ≠ some (ch c) := fun heq =>
  (h _ heq).elim hbar hparen

theorem Begins.length_pos {x : Text} (h : Begins x) : 0 < x.length := by
  obtain ⟨c, y, rfl, _⟩ := h
  exact Nat.succ_pos _

section

variable {spirit : Spirit} (h : spirit.Documented) {l : Level} {x rest : Text} {stack : NodeStack}
  {node : Node} {n bound : ℕ}

theorem IsWritten.begins (hleaf : IsWritten spirit x node) : Begins x := by
  cases hleaf with
  | any => exact ⟨_, _, rfl, by decide⟩
  | @char letter hletter =>
    cases letter with
    | plain c =>
      refine ⟨_, _, rfl, fun hmem => hletter.1 (List.map_subset ch ?_ hmem)⟩
      decide
    | escaped c => exact ⟨_, _, rfl, by decide⟩
  | string hletters => exact ⟨_, _, rfl, by decide⟩
  | ccl hcls => exact ⟨_, _, rfl, by decide⟩

/-- An expression begins with a part. -/
theorem Regex.begins {r : Regex l} (hr : r.Over (IsWritten spirit) bound) : Begins r.text := by
  induction r with
  | leaf text node => exact IsWritten.begins hr
  | group r ih => exact ⟨_, _, rfl, by decide⟩
  | star r ih => exact (ih hr).append _
  | plus r ih => exact (ih hr).append _
  | optional r ih => exact (ih hr).append _
  | rep1 r count ih => exact (ih hr.1).append _
  | rep2 r count ih => exact (ih hr.1).append _
  | rep3 r count1 count2 ih => exact (ih hr.1).append _
  | single r ih => exact ih hr
  | concat r s ihr ihs => exact (ihr hr.1).append _
  | only r ih => exact ih hr
  | or r s ihr ihs => exact (ihr hr.1).append _

/-! ## Operators -/

theorem Numeral.Reads.mono {count : Numeral} (hcount : count.Reads (2 ^ 31)) :
    count.Reads (2 ^ 32) :=
  ⟨hcount.nonempty, hcount.digit, hcount.value_eq, hcount.lt.trans (by decide)⟩

theorem singleton2_stop (hx : NoOperator x) :
    spirit.singleton2 (n + 1) x stack = .ok (some x, stack) := by
  have hbrace : ∀ rule : LexerRule, andThen (chP '{') rule x stack = .ok (none, stack) :=
    fun _ => andThen_of_miss (chP_miss (hx.head?_ne (by decide)))
  rw [Spirit.singleton2, alternative_of_miss (chP_miss (hx.head?_ne (by decide))),
    alternative_of_miss (chP_miss (hx.head?_ne (by decide))),
    alternative_of_miss (chP_miss (hx.head?_ne (by decide))), Spirit.repeat1, Spirit.repeat2,
    Spirit.repeat3, alternative_of_miss (hbrace _), alternative_of_miss (hbrace _),
    alternative_of_miss (hbrace _)]
  rfl

variable {topNode : Node}

theorem chP_read_hit (c : Char) : chP c ([ch c] ++ x) stack = .ok (some x, stack) := chP_hit c

theorem singleton2_star :
    spirit.singleton2 (n + 1) (ch '*' :: x) (topNode :: stack) =
      spirit.singleton2 n x (.starNode topNode :: stack) := by
  rw [Spirit.singleton2]
  exact alternative_of_hit (chP_read_hit '*') rfl (singleton2_ne_miss n)

theorem singleton2_plus :
    spirit.singleton2 (n + 1) (ch '+' :: x) (topNode :: stack) =
      spirit.singleton2 n x (.catNode topNode (.starNode topNode) :: stack) := by
  rw [Spirit.singleton2, alternative_of_miss (chP_miss (head?_ne (by decide)))]
  exact alternative_of_hit (chP_read_hit '+') rfl (singleton2_ne_miss n)

theorem singleton2_optional :
    spirit.singleton2 (n + 1) (ch '?' :: x) (topNode :: stack) =
      spirit.singleton2 n x (optionalNode topNode :: stack) := by
  rw [Spirit.singleton2, alternative_of_miss (chP_miss (head?_ne (by decide))),
    alternative_of_miss (chP_miss (head?_ne (by decide)))]
  exact alternative_of_hit (chP_read_hit '?') rfl (singleton2_ne_miss n)

/-- Before a brace the operators of one character do not match. -/
theorem singleton2_brace :
    spirit.singleton2 (n + 1) (ch '\x7b' :: x) stack =
      orElse (andThen (action (makeRep1 spirit) spirit.repeat1) (spirit.singleton2 n))
        (orElse (andThen (action (makeRep2 spirit) spirit.repeat2) (spirit.singleton2 n))
          (orElse (andThen (action (makeRep3 spirit) spirit.repeat3) (spirit.singleton2 n))
            nothing)) (ch '\x7b' :: x) stack := by
  rw [Spirit.singleton2, alternative_of_miss (chP_miss (head?_ne (by decide))),
    alternative_of_miss (chP_miss (head?_ne (by decide))),
    alternative_of_miss (chP_miss (head?_ne (by decide)))]

variable {count count1 count2 : Numeral}

include h

theorem uintP_hit (hcount : count.Reads (2 ^ 32)) {c : UInt8} (hc : isdigit c = false) :
    spirit.uintP (count.digits ++ c :: x) stack = .ok (some (c :: x), stack) := by
  rw [Spirit.uintP, ofReader, hcount.uintParser h (by intro d hd; cases hd; exact hc)]
  rfl

theorem singleton2_rep1 (hcount : count.Reads (2 ^ 32)) (hzero : count.value ≠ 0) :
    spirit.singleton2 (n + 1) (ch '\x7b' :: (count.digits ++ [ch '\x7d']) ++ x)
        (topNode :: stack) =
      spirit.singleton2 n x (repeatNode topNode count.value :: stack) := by
  have hhit : spirit.repeat1 ((ch '\x7b' :: (count.digits ++ [ch '\x7d'])) ++ x)
      (topNode :: stack) = .ok (some x, topNode :: stack) := by
    rw [List.cons_append, List.append_assoc, Spirit.repeat1, andThen_of_hit (chP_hit '{'),
      List.singleton_append, andThen_of_hit (uintP_hit h hcount (by decide))]
    exact chP_hit '}'
  rw [List.cons_append, singleton2_brace, ← List.cons_append]
  exact alternative_of_hit hhit ((makeRep1_numeral h hcount).trans (if_neg hzero))
    (singleton2_ne_miss n)

theorem singleton2_rep2 (hcount : count.Reads (2 ^ 32)) (hzero : count.value ≠ 0) :
    spirit.singleton2 (n + 1) (ch '\x7b' :: (count.digits ++ [ch ',', ch '\x7d']) ++ x)
        (topNode :: stack) =
      spirit.singleton2 n x
        (.catNode (repeatNode topNode count.value) (.starNode topNode) :: stack) := by
  have hopen : ch '\x7b' :: (count.digits ++ [ch ',', ch '\x7d']) ++ x =
      ch '\x7b' :: (count.digits ++ ch ',' :: ([ch '\x7d'] ++ x)) := by
    rw [List.cons_append, List.append_assoc]
    rfl
  have hhit : spirit.repeat2 (ch '\x7b' :: (count.digits ++ [ch ',', ch '\x7d']) ++ x)
      (topNode :: stack) = .ok (some x, topNode :: stack) := by
    rw [hopen, Spirit.repeat2, andThen_of_hit (chP_hit '{'),
      andThen_of_hit (uintP_hit h hcount (by decide)), andThen_of_hit (chP_hit ',')]
    exact chP_hit '}'
  have hmiss : spirit.repeat1 (ch '\x7b' :: (count.digits ++ [ch ',', ch '\x7d']) ++ x)
      (topNode :: stack) = .ok (none, topNode :: stack) := by
    rw [hopen, Spirit.repeat1, andThen_of_hit (chP_hit '{'),
      andThen_of_hit (uintP_hit h hcount (by decide))]
    exact chP_miss (head?_ne (by decide))
  rw [List.cons_append, singleton2_brace, ← List.cons_append, alternative_of_miss hmiss]
  exact alternative_of_hit hhit ((makeRep2_numeral h hcount).trans (if_neg hzero))
    (singleton2_ne_miss n)

theorem singleton2_rep3 (hcount1 : count1.Reads (2 ^ 32)) (hcount2 : count2.Reads (2 ^ 32))
    (hzero : count1.value ≠ 0) (hlt : count1.value < count2.value) :
    spirit.singleton2 (n + 1)
        (ch '\x7b' :: (count1.digits ++ ch ',' :: (count2.digits ++ [ch '\x7d'])) ++ x)
        (topNode :: stack) =
      spirit.singleton2 n x (.catNode (repeatNode topNode count1.value)
        (repeatNode (optionalNode topNode) (count2.value - count1.value)) :: stack) := by
  have hopen : ch '\x7b' :: (count1.digits ++ ch ',' :: (count2.digits ++ [ch '\x7d'])) ++ x =
      ch '\x7b' :: (count1.digits ++ ch ',' :: (count2.digits ++ ch '\x7d' :: x)) := by
    simp
  have hcomma : ∀ rule : LexerRule,
      andThen (chP '{') (andThen spirit.uintP (andThen (chP ',') rule))
        (ch '\x7b' :: (count1.digits ++ ch ',' :: (count2.digits ++ [ch '\x7d'])) ++ x)
        (topNode :: stack) = rule (count2.digits ++ ch '\x7d' :: x) (topNode :: stack) := by
    intro rule
    rw [hopen, andThen_of_hit (chP_hit '{'), andThen_of_hit (uintP_hit h hcount1 (by decide)),
      andThen_of_hit (chP_hit ',')]
  have hhit : spirit.repeat3
      (ch '\x7b' :: (count1.digits ++ ch ',' :: (count2.digits ++ [ch '\x7d'])) ++ x)
      (topNode :: stack) = .ok (some x, topNode :: stack) := by
    rw [Spirit.repeat3, hcomma, andThen_of_hit (uintP_hit h hcount2 (by decide))]
    exact chP_hit '}'
  have hdigit : (count2.digits ++ ch '\x7d' :: x).head? ≠ some (ch '\x7d') := by
    intro heq
    obtain ⟨c, digits, hdigits⟩ := List.exists_cons_of_ne_nil hcount2.nonempty
    have hc := hcount2.digit c (hdigits ▸ List.mem_cons_self)
    rw [hdigits] at heq
    rw [Option.some.inj heq] at hc
    exact absurd hc (by decide)
  have hmiss2 : spirit.repeat2
      (ch '\x7b' :: (count1.digits ++ ch ',' :: (count2.digits ++ [ch '\x7d'])) ++ x)
      (topNode :: stack) = .ok (none, topNode :: stack) := by
    rw [Spirit.repeat2, hcomma]
    exact chP_miss hdigit
  have hmiss1 : spirit.repeat1
      (ch '\x7b' :: (count1.digits ++ ch ',' :: (count2.digits ++ [ch '\x7d'])) ++ x)
      (topNode :: stack) = .ok (none, topNode :: stack) := by
    rw [hopen, Spirit.repeat1, andThen_of_hit (chP_hit '{'),
      andThen_of_hit (uintP_hit h hcount1 (by decide))]
    exact chP_miss (head?_ne (by decide))
  rw [List.cons_append, singleton2_brace, ← List.cons_append, alternative_of_miss hmiss1,
    alternative_of_miss hmiss2]
  exact alternative_of_hit hhit
    ((makeRep3_numeral h hcount1 hcount2).trans ((if_neg hzero).trans (if_neg (by omega))))
    (singleton2_ne_miss n)

/-! ## Parts -/

omit h in
theorem singleton_any (re : LexerRule) :
    spirit.singleton re n ([ch '.'] ++ rest) stack =
      spirit.singleton2 n rest (createNodes anyChar :: stack) := by
  rw [Spirit.singleton]
  exact alternative_of_hit (chP_read_hit '.') rfl (singleton2_ne_miss n)

/-- A leaf is read by the alternative that begins as it does. -/
theorem singleton_leaf (re : LexerRule) (hleaf : IsWritten spirit x node)
    (hn : (x ++ rest).length ≤ n) :
    spirit.singleton re n (x ++ rest) stack = spirit.singleton2 n rest (node :: stack) := by
  cases hleaf with
  | any => exact singleton_any re
  | @char letter hletter =>
    have hmiss : ∀ {c : Char}, c ∈ operators ++ ['"', '['] → ch '\\' ≠ ch c →
        chP c (letter.text ++ rest) stack = .ok (none, stack) := fun hc hback =>
      chP_miss (Letter.head?_ne hletter hc hback)
    have hplain : letter.Allowed operators := by
      cases letter with
      | plain c =>
        exact ⟨fun hmem => hletter.1 (List.map_subset ch
          (List.subset_append_left operators ['"', '[']) hmem), hletter.2⟩
      | escaped c => exact hletter
    have hhit : spirit.plainChar (letter.text ++ rest) stack = .ok (some rest, stack) :=
      letter_hit h (by decide) hplain
    have hread : makeChar spirit letter.text stack = .ok (.charNode letter.value 0 :: stack) := by
      have hescape := lexEscapeCh_letter h (x := []) hletter
      rw [List.append_nil] at hescape
      rw [makeChar, push, readChar, hescape]
      rfl
    rw [Spirit.singleton, alternative_of_miss (hmiss (by decide) (by decide)), Spirit.fullccl,
      Spirit.bracketed, alternative_of_miss (andThen_of_miss (hmiss (by decide) (by decide))),
      Spirit.quoted, alternative_of_miss (andThen_of_miss (hmiss (by decide) (by decide))),
      orElse_of_miss (andThen_of_miss (hmiss (by decide) (by decide)))]
    exact andThen_of_hit ((action_of_hit hhit).trans (by rw [hread]; rfl))
  | @string letters hletters =>
    have hact : makeString spirit (ch '"' :: (letters.text ++ [ch '"'])) stack =
        .ok (letters.node :: stack) := by
      rw [makeString, push, readString_letters h hletters]
      rfl
    have hmiss : ∀ {c : Char}, ch '"' ≠ ch c →
        chP c (ch '"' :: (letters.text ++ [ch '"']) ++ rest) stack = .ok (none, stack) :=
      fun hne => chP_miss (head?_ne hne)
    rw [Spirit.singleton, alternative_of_miss (hmiss (by decide)), Spirit.fullccl,
      Spirit.bracketed, alternative_of_miss (andThen_of_miss (hmiss (by decide)))]
    exact alternative_of_hit (quoted_hit h hletters hn) hact (singleton2_ne_miss n)
  | @ccl cls hcls =>
    have hact : makeCcl spirit cls.text stack = .ok (createNodes (cls.chars spirit) :: stack) := by
      rw [makeCcl, push, readCcl_text h hcls]
      rfl
    have hmiss : chP '.' (cls.text ++ rest) stack = .ok (none, stack) :=
      chP_miss (head?_ne (by decide : ch '[' ≠ ch '.'))
    rw [Spirit.singleton, alternative_of_miss hmiss, Spirit.fullccl]
    exact alternative_of_hit (bracketed_hit h hcls hn) hact (singleton2_ne_miss n)

omit h in
/-- A part in parentheses. -/
theorem singleton_group {re : LexerRule} {stack' : NodeStack}
    (hre : re x stack = .ok (some (ch ')' :: rest), stack')) :
    spirit.singleton re n (ch '(' :: x) stack = spirit.singleton2 n rest stack' := by
  have hgroup : andThen (chP '(') (andThen re (andThen (chP ')') (spirit.singleton2 n)))
      (ch '(' :: x) stack = spirit.singleton2 n rest stack' := by
    rw [andThen_of_hit (chP_hit '('), andThen_of_hit hre, andThen_of_hit (chP_hit ')')]
  rw [Spirit.singleton, alternative_of_miss (chP_miss (head?_ne (by decide))), Spirit.fullccl,
    Spirit.bracketed, alternative_of_miss (andThen_of_miss (chP_miss (head?_ne (by decide)))),
    Spirit.quoted, alternative_of_miss (andThen_of_miss (chP_miss (head?_ne (by decide)))),
    orElse_of_never_miss, hgroup]
  intro s'
  rw [hgroup]
  exact singleton2_ne_miss n _ _ _

omit h in
theorem singleton_stop (re : LexerRule) (hx : Stops x) :
    spirit.singleton re n x stack = .ok (none, stack) := by
  have hmiss : ∀ {c : Char}, ch c ≠ ch '|' → ch c ≠ ch ')' → ∀ rule : LexerRule,
      andThen (chP c) rule x stack = .ok (none, stack) := fun hbar hparen _ =>
    andThen_of_miss (chP_miss (hx.head?_ne hbar hparen))
  have hplain : spirit.plainChar x stack = .ok (none, stack) := by
    refine letter_miss fun c hc => ?_
    rcases hx c hc with rfl | rfl
    · decide
    · decide
  rw [Spirit.singleton, alternative_of_miss (chP_miss (hx.head?_ne (by decide) (by decide))),
    Spirit.fullccl, Spirit.bracketed, alternative_of_miss (hmiss (by decide) (by decide) _),
    Spirit.quoted, alternative_of_miss (hmiss (by decide) (by decide) _),
    orElse_of_miss (hmiss (by decide) (by decide) _)]
  exact andThen_of_miss (action_of_miss hplain)

/-! ## Levels -/

variable (spirit) in
/-- The loop of a series, behind its first part. -/
def seriesLoop (n m : ℕ) : LexerRule :=
  many .fuel (action makeConcat (spirit.singleton (spirit.re n) n)) m

variable (spirit) in
/-- The loop of an expression, behind its first series. -/
def reLoop (n m : ℕ) : LexerRule :=
  many .fuel (action makeOr (andThen (chP '|') (spirit.series (spirit.re n) n))) m

variable (spirit) in
/-- The rule of a level comes to its loop behind the text of an expression. -/
def Comes : {l : Level} → Regex l → Prop
  | .singleton, r => ∀ n rest stack, (r.text ++ rest).length ≤ n →
      ∃ m, rest.length < m ∧ spirit.singleton (spirit.re n) n (r.text ++ rest) stack =
        spirit.singleton2 m rest (r.tree :: stack)
  | .series, r => ∀ n rest stack, (r.text ++ rest).length ≤ n → NoOperator rest →
      ∃ m, rest.length < m ∧ spirit.series (spirit.re n) n (r.text ++ rest) stack =
        seriesLoop spirit n m rest (r.tree :: stack)
  | .re, r => ∀ n rest stack, (r.text ++ rest).length ≤ n → Stops rest →
      ∃ m, rest.length < m ∧ spirit.re (n + 1) (r.text ++ rest) stack =
        reLoop spirit n m rest (r.tree :: stack)

omit h in
theorem Comes.singleton_hit {r : Regex .singleton} (hr : Comes spirit r)
    (hn : (r.text ++ rest).length ≤ n) (hrest : NoOperator rest) :
    spirit.singleton (spirit.re n) n (r.text ++ rest) stack =
      .ok (some rest, r.tree :: stack) := by
  obtain ⟨m, hm, hread⟩ := hr n rest stack hn
  obtain ⟨m, rfl⟩ := Nat.exists_eq_succ_of_ne_zero (Nat.ne_of_gt (Nat.zero_lt_of_lt hm))
  rw [hread, singleton2_stop hrest]

omit h in
theorem Comes.series_hit {r : Regex .series} (hr : Comes spirit r)
    (hn : (r.text ++ rest).length ≤ n) (hrest : Stops rest) :
    spirit.series (spirit.re n) n (r.text ++ rest) stack = .ok (some rest, r.tree :: stack) := by
  obtain ⟨m, hm, hread⟩ := hr n rest stack hn hrest.noOperator
  obtain ⟨m, rfl⟩ := Nat.exists_eq_succ_of_ne_zero (Nat.ne_of_gt (Nat.zero_lt_of_lt hm))
  rw [hread, seriesLoop, many_of_miss (action_of_miss (singleton_stop _ hrest))]

omit h in
theorem Comes.re_hit {r : Regex .re} (hr : Comes spirit r) (hn : (r.text ++ rest).length ≤ n)
    (hrest : Stops rest) (hbar : rest.head? ≠ some (ch '|')) :
    spirit.re (n + 1) (r.text ++ rest) stack = .ok (some rest, r.tree :: stack) := by
  obtain ⟨m, hm, hread⟩ := hr n rest stack hn hrest
  obtain ⟨m, rfl⟩ := Nat.exists_eq_succ_of_ne_zero (Nat.ne_of_gt (Nat.zero_lt_of_lt hm))
  rw [hread, reLoop, many_of_miss (action_of_miss (andThen_of_miss (chP_miss hbar)))]

omit h in
/-- An operator behind a part is read by the rule of the operators. -/
theorem Comes.behind {r s : Regex .singleton} {u : Text} (hr : Comes spirit r)
    (htext : s.text = r.text ++ u) (hu : u ≠ [])
    (hoperator : ∀ m x stack, spirit.singleton2 (m + 1) (u ++ x) (r.tree :: stack) =
      spirit.singleton2 m x (s.tree :: stack)) :
    Comes spirit s := by
  intro n rest stack hn
  rw [htext, List.append_assoc] at hn ⊢
  obtain ⟨m, hm, hread⟩ := hr n (u ++ rest) stack hn
  obtain ⟨m, rfl⟩ := Nat.exists_eq_succ_of_ne_zero (Nat.ne_of_gt (Nat.zero_lt_of_lt hm))
  have hpos := List.length_pos_iff.mpr hu
  refine ⟨m, ?_, hread.trans (hoperator m rest stack)⟩
  rw [List.length_append] at hm
  omega

/-- The rule of each level reads the expressions of the level. -/
theorem comes {r : Regex l} (hr : r.Over (IsWritten spirit) (2 ^ 31)) : Comes spirit r := by
  induction r with
  | leaf text node =>
    intro n rest stack hn
    have hpos := (IsWritten.begins hr).length_pos
    refine ⟨n, ?_, singleton_leaf h _ hr hn⟩
    rw [Regex.text, List.length_append] at hn
    omega
  | group r ih =>
    intro n rest stack hn
    rw [Regex.text, List.cons_append, List.append_assoc, List.singleton_append,
      List.length_cons, List.length_append, List.length_cons] at hn
    obtain ⟨n, rfl⟩ := Nat.exists_eq_succ_of_ne_zero (Nat.ne_of_gt (Nat.zero_lt_of_lt hn))
    refine ⟨n + 1, by omega, ?_⟩
    rw [Regex.text, List.cons_append, List.append_assoc, List.singleton_append]
    refine singleton_group ((ih hr).re_hit ?_ (fun c hc => ?_) (head?_ne (by decide)))
    · rw [List.length_append, List.length_cons]
      omega
    · cases hc
      exact .inr rfl
  | star r ih => exact (ih hr).behind rfl (List.cons_ne_nil _ _) fun m x st => singleton2_star
  | plus r ih => exact (ih hr).behind rfl (List.cons_ne_nil _ _) fun m x st => singleton2_plus
  | optional r ih =>
    exact (ih hr).behind rfl (List.cons_ne_nil _ _) fun m x st => singleton2_optional
  | rep1 r count ih =>
    obtain ⟨hr, hcount, hzero⟩ := hr
    exact (ih hr).behind rfl (List.cons_ne_nil _ _) fun m x st =>
      singleton2_rep1 h hcount.mono hzero
  | rep2 r count ih =>
    obtain ⟨hr, hcount, hzero⟩ := hr
    exact (ih hr).behind rfl (List.cons_ne_nil _ _) fun m x st =>
      singleton2_rep2 h hcount.mono hzero
  | rep3 r count1 count2 ih =>
    obtain ⟨hr, hcount1, hcount2, hzero, hlt⟩ := hr
    exact (ih hr).behind rfl (List.cons_ne_nil _ _) fun m x st =>
      singleton2_rep3 h hcount1.mono hcount2.mono hzero hlt
  | single r ih =>
    intro n rest stack hn hrest
    have hpos := (Regex.begins hr).length_pos
    refine ⟨n, ?_, andThen_of_hit ((ih hr).singleton_hit hn hrest)⟩
    rw [Regex.text, List.length_append] at hn
    rw [Regex.text] at hpos
    omega
  | concat r s ihr ihs =>
    intro n rest stack hn hrest
    obtain ⟨hr, hs⟩ := hr
    rw [Regex.text, List.append_assoc] at hn ⊢
    have hpos := (Regex.begins hs).length_pos
    obtain ⟨m, hm, hread⟩ := ihr hr n _ stack hn ((Regex.begins hs).append rest).noOperator
    obtain ⟨m, rfl⟩ := Nat.exists_eq_succ_of_ne_zero (Nat.ne_of_gt (Nat.zero_lt_of_lt hm))
    have hlast : (s.text ++ rest).length ≤ n := by
      rw [List.length_append] at hn
      omega
    have haction : action makeConcat (spirit.singleton (spirit.re n) n) (s.text ++ rest)
        (r.tree :: stack) = .ok (some rest, (Regex.concat r s).tree :: stack) :=
      action_of_hit ((ihs hs).singleton_hit hlast hrest)
    refine ⟨m, ?_, hread.trans (many_of_hit haction)⟩
    rw [List.length_append] at hm
    omega
  | only r ih =>
    intro n rest stack hn hrest
    have hpos := (Regex.begins hr).length_pos
    refine ⟨n, ?_, andThen_of_hit ((ih hr).series_hit hn hrest)⟩
    rw [Regex.text, List.length_append] at hn
    rw [Regex.text] at hpos
    omega
  | or r s ihr ihs =>
    intro n rest stack hn hrest
    obtain ⟨hr, hs⟩ := hr
    rw [Regex.text, List.append_assoc, List.cons_append] at hn ⊢
    obtain ⟨m, hm, hread⟩ := ihr hr n _ stack hn fun c hc => by
      cases hc
      exact .inl rfl
    obtain ⟨m, rfl⟩ := Nat.exists_eq_succ_of_ne_zero (Nat.ne_of_gt (Nat.zero_lt_of_lt hm))
    have hlast : (s.text ++ rest).length ≤ n := by
      rw [List.length_append, List.length_cons] at hn
      omega
    have hhit : andThen (chP '|') (spirit.series (spirit.re n) n)
        ((ch '|' :: s.text) ++ rest) (r.tree :: stack) =
        .ok (some rest, s.tree :: r.tree :: stack) :=
      (andThen_of_hit (chP_hit '|')).trans ((ihs hs).series_hit hlast hrest)
    refine ⟨m, ?_, hread.trans (many_of_hit (action_of_hit hhit))⟩
    rw [List.length_cons, List.length_append] at hm
    omega

/-- The grammar accepts the text of an expression and gives its tree. -/
theorem lexerGrammar_text {r : Regex .re} (hr : r.Over (IsWritten spirit) (2 ^ 31)) :
    spirit.lexerGrammar r.text = .ok (some r.tree) := by
  have hread : spirit.re (r.text.length + 1) r.text [] = .ok (some [], [r.tree]) := by
    have hhit : spirit.re (r.text.length + 1) (r.text ++ []) [] = .ok (some [], [r.tree]) :=
      (comes h hr).re_hit (by rw [List.append_nil])
        (fun c hc => absurd hc (Option.not_mem_none c)) (by decide)
    rwa [List.append_nil] at hhit
  have hregex : spirit.regex (r.text.length + 1) r.text [] = .ok (some [], [r.tree]) := by
    rw [Spirit.regex, andThen_of_hit hread,
      andThen_of_hit (optional_of_miss (andThen_of_miss (chP_miss (by decide))))]
    exact optional_of_miss (chP_miss (by decide))
  rw [Spirit.lexerGrammar, hregex]

theorem grammar_text {r : Regex .re} (hr : r.Over (IsWritten spirit) (2 ^ 31)) :
    spirit.grammar r.text = some r.tree := by
  rw [Spirit.grammar, lexerGrammar_text h hr]
  rfl

/-- A written expression is read back: its text is accepted, with a tree that stands for the same
texts, and no other way to write that text stands for others. -/
theorem lexerGrammar_reads {r : Regex .re} (hr : r.Over (IsWritten spirit) (2 ^ 31)) :
    (∃ tree, spirit.lexerGrammar r.text = .ok (some tree) ∧ tree.lang = r.denote) ∧
      ∀ s : Regex .re, s.Over (IsWritten spirit) (2 ^ 31) → s.text = r.text →
        s.denote = r.denote := by
  have hread := lexerGrammar_text h hr
  refine ⟨⟨r.tree, hread, Regex.lang_tree hr⟩, fun s hs htext => ?_⟩
  have hread' := lexerGrammar_text h hs
  rw [htext, hread] at hread'
  have htree : r.tree = s.tree := Option.some.inj (Except.ok.inj hread')
  rw [← Regex.lang_tree hr, htree, Regex.lang_tree hs]

end

def letterAlone (c : Char) : Regex .singleton := .leaf [ch c] (.charNode (ch c) 0)

/-- The expression `a|b*`. -/
def aOrBs : Regex .re :=
  .or (.only (.single (letterAlone 'a'))) (.single (.star (letterAlone 'b')))

theorem isWritten_letterAlone {spirit : Spirit} {c : Char}
    (hc : ch c ∉ (operators ++ ['"', '[']).map ch ∧ ch c ≠ ch '\\') :
    IsWritten spirit [ch c] (.charNode (ch c) 0) :=
  have hallowed : (Letter.plain (ch c)).Allowed (operators ++ ['"', '[']) := hc
  .char hallowed

theorem lexerGrammar_reads_aOrBs :
    (∃ tree, plainSpirit.lexerGrammar (str "a|b*") = .ok (some tree) ∧
      tree.lang = aOrBs.denote) ∧
      ∀ s : Regex .re, s.Over (IsWritten plainSpirit) (2 ^ 31) → s.text = str "a|b*" →
        s.denote = aOrBs.denote :=
  lexerGrammar_reads plainSpirit_documented
    (show aOrBs.Over (IsWritten plainSpirit) (2 ^ 31) from
      ⟨isWritten_letterAlone (by decide), isWritten_letterAlone (by decide)⟩)

end P4LS.Slex
