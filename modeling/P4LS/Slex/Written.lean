import P4LS.Slex.Accepted

/-!
# The texts of expressions

An expression that is written with the escapes of one letter, strings and classes is read as it is
meant: the grammar accepts its text and gives its tree.  In a class a letter is followed by `-` only
in a range, and `[` only begins a name.
-/

namespace P4LS.Slex

open Bytes Rule

/-! ## Letters -/

/-- A character as it is written. -/
inductive Letter where
  | plain (c : UInt8)
  | escaped (c : UInt8)
  deriving DecidableEq

namespace Letter

def text : Letter → Text
  | plain c => [c]
  | escaped c => [ch '\\', c]

def value : Letter → UInt8
  | plain c => c
  | escaped c => lexEscape c

/-- The letter is read where some characters are excluded. -/
def Allowed (excluded : List Char) : Letter → Prop
  | plain c => c ∉ excluded.map ch ∧ c ≠ ch '\\'
  | escaped c => IsEscape c

end Letter

section

variable {spirit : Spirit} (h : spirit.Documented) {excluded : List Char} {letter : Letter}
  {x rest : Text} {stack : NodeStack}

theorem chP_miss {c : Char} (hx : x.head? ≠ some (ch c)) :
    chP c x stack = .ok (none, stack) :=
  one_miss fun _ hd => beq_eq_false_iff_ne.mpr fun heq => hx (heq ▸ hd)

theorem chP_hit (c : Char) : chP c (ch c :: x) stack = .ok (some x, stack) :=
  one_cons (beq_self_eq_true _)

theorem anycharExcept_miss (hx : ∀ c ∈ x.head?, c ∈ excluded.map ch) :
    anycharExcept excluded x stack = .ok (none, stack) :=
  one_miss fun c hc => by rw [List.contains_iff_mem.mpr (hx c hc), Bool.not_true]

theorem anycharExcept_hit {c : UInt8} (hc : c ∉ excluded.map ch) :
    anycharExcept excluded (c :: x) stack = .ok (some x, stack) := by
  have hcontains : (excluded.map ch).contains c = false :=
    Bool.eq_false_iff.mpr fun hmem => hc (List.contains_iff_mem.mp hmem)
  exact one_cons (by rw [hcontains, Bool.not_false])

theorem Letter.head?_ne (hletter : letter.Allowed excluded) {c : Char} (hc : c ∈ excluded)
    (hback : ch '\\' ≠ ch c) : (letter.text ++ x).head? ≠ some (ch c) := by
  intro heq
  cases letter with
  | plain _ => exact hletter.1 (Option.some.inj heq ▸ List.mem_map_of_mem hc)
  | escaped _ => exact hback (Option.some.inj heq)

include h

theorem escseq_letter {c : UInt8} (hc : IsEscape c) :
    spirit.escseq (ch '\\' :: c :: x) stack = .ok (some x, stack) := by
  obtain ⟨hoctal, hlower, hupper, hnewline⟩ := hc
  rw [Spirit.escseq, andThen_of_hit (chP_hit '\\')]
  have hoct : (ofReader spirit.octParser : LexerRule) (c :: x) stack = .ok (none, stack) := by
    rw [ofReader, h.octParser_none c x hoctal]
  have hhex : (one fun c => c == ch 'x' || c == ch 'X' : LexerRule) (c :: x) stack =
      .ok (none, stack) :=
    one_miss fun d hd => by
      cases hd
      rw [beq_eq_false_iff_ne.mpr hlower, beq_eq_false_iff_ne.mpr hupper, Bool.or_self]
  rw [orElse_of_miss hoct, orElse_of_miss (andThen_of_miss hhex)]
  exact anycharExcept_hit (by rwa [List.map_singleton, List.mem_singleton])

theorem letter_hit (hback : '\\' ∈ excluded) (hletter : letter.Allowed excluded) :
    orElse (anycharExcept excluded) spirit.escseq (letter.text ++ x) stack =
      .ok (some x, stack) := by
  cases letter with
  | plain c => exact orElse_of_hit (anycharExcept_hit hletter.1)
  | escaped c =>
    refine (orElse_of_miss (anycharExcept_miss fun d hd => ?_)).trans (escseq_letter h hletter)
    cases hd
    exact List.mem_map_of_mem hback

theorem lexEscapeCh_letter (hletter : letter.Allowed excluded) :
    spirit.lexEscapeCh (letter.text ++ x) = some (letter.value, x) := by
  cases letter with
  | plain c => exact h.lexEscapeCh_plain c x hletter.2
  | escaped c => exact h.lexEscapeCh_escape c x hletter

omit h in
theorem letter_miss (hx : ∀ c ∈ x.head?, c ∈ excluded.map ch ∧ c ≠ ch '\\') :
    orElse (anycharExcept excluded) spirit.escseq x stack = .ok (none, stack) :=
  (orElse_of_miss (anycharExcept_miss fun c hc => (hx c hc).1)).trans
    (andThen_of_miss (chP_miss fun heq => (hx _ heq).2 rfl))

end

/-! ## Strings -/

/-- The letters of a string, which has at least one. -/
structure Letters where
  first : Letter
  more : List Letter

namespace Letters

def text (letters : Letters) : Text := letters.first.text ++ letters.more.flatMap Letter.text

/-- The nodes of the letters joined from left to right. -/
def node (letters : Letters) : Node :=
  letters.more.foldl (fun topNode letter => .catNode topNode (.charNode letter.value 0))
    (.charNode letters.first.value 0)

def Allowed (excluded : List Char) (letters : Letters) : Prop :=
  ∀ letter ∈ letters.first :: letters.more, letter.Allowed excluded

end Letters

theorem length_letter_pos (letter : Letter) : 0 < letter.text.length := by
  cases letter with
  | plain c => exact Nat.one_pos
  | escaped c => exact Nat.two_pos

section

variable {spirit : Spirit} (h : spirit.Documented) {letters : List Letter}
  {rest : Text} {stack : NodeStack} {n : ℕ}

include h

theorem stringChar_letter {letter : Letter} (hletter : letter.Allowed ['"', '\\']) :
    spirit.stringChar (letter.text ++ rest) stack = .ok (some rest, stack) :=
  letter_hit h (by decide) hletter

theorem many_stringChar (hletters : ∀ letter ∈ letters, letter.Allowed ['"', '\\'])
    (hn : (letters.flatMap Letter.text ++ ch '"' :: rest).length < n) :
    many .fuel spirit.stringChar n (letters.flatMap Letter.text ++ ch '"' :: rest) stack =
      .ok (some (ch '"' :: rest), stack) := by
  induction letters generalizing n with
  | nil =>
    obtain ⟨n, rfl⟩ := Nat.exists_eq_succ_of_ne_zero (Nat.ne_of_gt (Nat.zero_lt_of_lt hn))
    exact many_of_miss (letter_miss (by intro c hc; cases hc; decide))
  | cons letter letters ih =>
    obtain ⟨hletter, hmore⟩ := List.forall_mem_cons.mp hletters
    obtain ⟨n, rfl⟩ := Nat.exists_eq_succ_of_ne_zero (Nat.ne_of_gt (Nat.zero_lt_of_lt hn))
    rw [List.flatMap_cons, List.append_assoc] at hn ⊢
    have hlt := length_letter_pos letter
    rw [List.length_append] at hn
    rw [many_of_hit (stringChar_letter h hletter)]
    exact ih hmore (by omega)

theorem stringLoop_letters (hletters : ∀ letter ∈ letters, letter.Allowed ['"', '\\'])
    (topNode : Node) (hn : (letters.flatMap Letter.text ++ [ch '"']).length < n) :
    stringLoop spirit n (letters.flatMap Letter.text ++ [ch '"']) topNode =
      .ok (letters.foldl (fun topNode letter => .catNode topNode (.charNode letter.value 0))
        topNode) := by
  induction letters generalizing n topNode with
  | nil =>
    obtain ⟨n, rfl⟩ := Nat.exists_eq_succ_of_ne_zero (Nat.ne_of_gt (Nat.zero_lt_of_lt hn))
    rw [List.flatMap_nil, List.nil_append, stringLoop, if_pos rfl]
    rfl
  | cons letter letters ih =>
    obtain ⟨hletter, hmore⟩ := List.forall_mem_cons.mp hletters
    obtain ⟨n, rfl⟩ := Nat.exists_eq_succ_of_ne_zero (Nat.ne_of_gt (Nat.zero_lt_of_lt hn))
    have hlt := length_letter_pos letter
    have hquote : (letter.text ++ (letters.flatMap Letter.text ++ [ch '"'])).head? ≠
        some (ch '"') := Letter.head?_ne hletter (by decide) (by decide)
    have hread : spirit.lexEscapeCh (letter.text ++ (letters.flatMap Letter.text ++ [ch '"'])) =
        some (letter.value, letters.flatMap Letter.text ++ [ch '"']) :=
      lexEscapeCh_letter h hletter
    rw [List.flatMap_cons, List.append_assoc] at hn ⊢
    rw [List.length_append] at hn
    generalize hx : letter.text ++ (letters.flatMap Letter.text ++ [ch '"']) = x at hquote hread ⊢
    cases x with
    | nil =>
      have hlength := congrArg List.length hx
      rw [List.length_append, List.length_nil] at hlength
      omega
    | cons c x =>
      rw [stringLoop, if_neg (fun heq : c = ch '"' => hquote (congrArg some heq)), hread]
      exact ih hmore _ (by omega)

end

/-! ## The names of classes -/

namespace CclExpr

theorem text_eq (name : CclExpr) : name.text = ch '[' :: name.text.tail := by
  cases name <;> decide

theorem take_injective {name name' : CclExpr} (h : name.text.take 6 = name'.text.take 6) :
    name = name' := by
  cases name <;> cases name' <;> first | rfl | exact absurd h (by decide)

theorem six_le (name : CclExpr) : 6 ≤ name.text.length := by cases name <;> decide

/-- A name is found in front of any text. -/
theorem find_append (name : CclExpr) (x : Text) : find (name.text ++ x) = some name := by
  have hiff : (fun name' : CclExpr => name'.text.isPrefixOf (name.text ++ x)) =
      fun name' => decide (name' = name) := by
    funext name'
    refine Bool.eq_iff_iff.mpr ?_
    rw [List.isPrefixOf_iff_prefix, decide_eq_true_eq]
    constructor
    · rintro ⟨y, hy⟩
      have htake := congrArg (List.take 6) hy
      rw [List.take_append_of_le_length (six_le name'),
        List.take_append_of_le_length (six_le name)] at htake
      exact take_injective htake
    · rintro rfl
      exact List.prefix_append _ _
  rw [find, hiff]
  cases name <;> rfl

theorem find_eq_none {x : Text} (h : x.head? ≠ some (ch '[')) : find x = none := by
  refine List.find?_eq_none.mpr fun name _ hprefix => h ?_
  obtain ⟨y, rfl⟩ := List.isPrefixOf_iff_prefix.mp hprefix
  rw [text_eq]
  rfl

/-- The first `]` behind the beginning of a name is its last character. -/
theorem dropWhile_text (name : CclExpr) (x : Text) :
    (name.text ++ x).dropWhile (· != ch ']') = ch ']' :: x := by
  have hsplit : name.text = name.text.dropLast ++ [ch ']'] ∧
      ∀ c ∈ name.text.dropLast, (c != ch ']') = true := by
    cases name <;> decide
  rw [hsplit.1, List.append_assoc, List.dropWhile_append_of_pos hsplit.2]
  rfl

end CclExpr

/-! ## Classes -/

/-- What a class has between its brackets. -/
inductive CclItem where
  | one (letter : Letter)
  | range (first last : Letter)
  | named (name : CclExpr)

namespace CclItem

def text : CclItem → Text
  | one letter => letter.text
  | range first last => first.text ++ ch '-' :: last.text
  | named name => name.text

/-- The characters of the part. -/
def has (spirit : Spirit) : CclItem → RangeRun
  | one letter => fun c => c == letter.value
  | range first last => fun c =>
    decide (first.value.toInt8 ≤ c.toInt8 ∧ c.toInt8 ≤ last.value.toInt8)
  | named name => spirit.test name

def Allowed : CclItem → Prop
  | one letter => letter.Allowed ['\\', '\n', ']', '[']
  | range first last => first.Allowed ['\\', '\n', ']', '['] ∧ last.Allowed ['\\', '\n', ']'] ∧
      first.value.toInt8 < last.value.toInt8
  | named _ => True

end CclItem

def classText (items : List CclItem) : Text := items.flatMap CclItem.text

theorem classText_cons (item : CclItem) (items : List CclItem) (x : Text) :
    classText (item :: items) ++ x = item.text ++ (classText items ++ x) := by
  rw [classText, List.flatMap_cons, List.append_assoc, classText]

/-- The parts may stand in brackets: behind a letter comes no `-`. -/
def ClassAllowed : List CclItem → Prop
  | [] => True
  | .one letter :: items =>
    (CclItem.one letter).Allowed ∧ (classText items).head? ≠ some (ch '-') ∧ ClassAllowed items
  | item :: items => item.Allowed ∧ ClassAllowed items

theorem RangeRun.set_self (rr : RangeRun) (v : UInt8) :
    rr.set v v = fun c => rr c || c == v := by
  funext c
  have hiff : (v.toInt8 ≤ c.toInt8 ∧ c.toInt8 ≤ v.toInt8) ↔ c = v := by
    constructor
    · rintro ⟨hle, hge⟩
      exact congrArg Int8.toUInt8 (Int8.le_antisymm hge hle)
    · rintro rfl
      exact ⟨Int8.le_refl _, Int8.le_refl _⟩
  rw [RangeRun.set, decide_eq_decide.mpr hiff]
  rfl

theorem head?_append_ne {x y : Text} {c : UInt8} (hx : x.head? ≠ some c) (hy : y.head? ≠ some c) :
    (x ++ y).head? ≠ some c := by
  cases x with
  | nil => exact hy
  | cons d x => exact hx

section

variable {spirit : Spirit} (h : spirit.Documented) {letter : Letter} {items : List CclItem}
  {x rest : Text} {stack : NodeStack} {n : ℕ}

theorem cclExpr_miss (hx : x.head? ≠ some (ch '[')) :
    Spirit.cclExpr x stack = .ok (none, stack) := by
  rw [Spirit.cclExpr, ofReader, CclExpr.find_eq_none hx]
  rfl

theorem classText_head (hx : x.head? = some (ch ']'))
    (hhead : (classText items).head? ≠ some (ch '-')) :
    (classText items ++ x).head? ≠ some (ch '-') :=
  head?_append_ne hhead (hx ▸ by decide)

include h

theorem cclChar_letter (hletter : letter.Allowed ['\\', '\n', ']']) :
    spirit.cclChar (letter.text ++ x) stack = .ok (some x, stack) :=
  letter_hit h (by decide) hletter

omit h in
theorem Letter.Allowed.cclChar (hletter : letter.Allowed ['\\', '\n', ']', '[']) :
    letter.Allowed ['\\', '\n', ']'] := by
  cases letter with
  | plain c =>
    refine ⟨fun hmem => hletter.1 ?_, hletter.2⟩
    exact List.map_subset ch (List.subset_append_left ['\\', '\n', ']'] ['[']) hmem
  | escaped c => exact hletter

/-- A letter that no `-` follows is a part. -/
theorem cclItem_one (hletter : letter.Allowed ['\\', '\n', ']', '['])
    (hx : x.head? ≠ some (ch '-')) :
    spirit.cclItem (letter.text ++ x) stack = .ok (some x, stack) := by
  rw [Spirit.cclItem,
    orElse_of_miss (cclExpr_miss (Letter.head?_ne hletter (by decide) (by decide))),
    andThen_of_hit (cclChar_letter h hletter.cclChar)]
  exact optional_of_miss (andThen_of_miss (chP_miss hx))

theorem cclItem_range {first last : Letter} (hfirst : first.Allowed ['\\', '\n', ']', '['])
    (hlast : last.Allowed ['\\', '\n', ']']) :
    spirit.cclItem (first.text ++ (ch '-' :: (last.text ++ x))) stack = .ok (some x, stack) := by
  rw [Spirit.cclItem,
    orElse_of_miss (cclExpr_miss (Letter.head?_ne hfirst (by decide) (by decide))),
    andThen_of_hit (cclChar_letter h hfirst.cclChar)]
  exact optional_of_hit ((andThen_of_hit (chP_hit '-')).trans (cclChar_letter h hlast))

omit h in
theorem cclItem_named (name : CclExpr) :
    spirit.cclItem (name.text ++ x) stack = .ok (some x, stack) := by
  refine orElse_of_hit ?_
  rw [Spirit.cclExpr, ofReader, CclExpr.find_append, Option.map_some, List.drop_left]

omit h in
/-- The bracket ends the parts. -/
theorem cclItem_miss :
    spirit.cclItem (ch ']' :: x) stack = .ok (none, stack) :=
  (orElse_of_miss (cclExpr_miss (head?_ne (by decide)))).trans
    (andThen_of_miss (letter_miss (by intro c hc; cases hc; decide)))

/-- The parts of a class are read to its bracket. -/
theorem ccl_classText (hitems : ClassAllowed items)
    (hn : (classText items ++ ch ']' :: rest).length < n) :
    spirit.ccl n (classText items ++ ch ']' :: rest) stack =
      .ok (some (ch ']' :: rest), stack) := by
  induction items generalizing n with
  | nil =>
    obtain ⟨n, rfl⟩ := Nat.exists_eq_succ_of_ne_zero (Nat.ne_of_gt (Nat.zero_lt_of_lt hn))
    exact many_of_miss cclItem_miss
  | cons item items ih =>
    obtain ⟨n, rfl⟩ := Nat.exists_eq_succ_of_ne_zero (Nat.ne_of_gt (Nat.zero_lt_of_lt hn))
    have hstep : spirit.cclItem (item.text ++ (classText items ++ ch ']' :: rest)) stack =
        .ok (some (classText items ++ ch ']' :: rest), stack) ∧ ClassAllowed items ∧
        0 < item.text.length := by
      cases item with
      | one letter =>
        obtain ⟨hletter, hhead, hitems⟩ := hitems
        exact ⟨cclItem_one h hletter (classText_head rfl hhead), hitems, length_letter_pos letter⟩
      | range first last =>
        obtain ⟨⟨hfirst, hlast, _⟩, hitems⟩ := hitems
        refine ⟨?_, hitems, ?_⟩
        · rw [CclItem.text, List.append_assoc, List.cons_append]
          exact cclItem_range h hfirst hlast
        · rw [CclItem.text, List.length_append]
          exact Nat.lt_of_lt_of_le (length_letter_pos first) (Nat.le_add_right _ _)
      | named name =>
        exact ⟨cclItem_named name, hitems.2, Nat.lt_of_lt_of_le (by decide) name.six_le⟩
    obtain ⟨hhit, hitems, hlt⟩ := hstep
    rw [classText_cons] at hn ⊢
    rw [List.length_append] at hn
    rw [Spirit.ccl, many_of_hit hhit]
    exact ih hitems (by omega)

omit h in
theorem cclLoop_one {c d : UInt8} (hne : x ≠ []) (hclose : x.head? ≠ some (ch ']'))
    (hopen : x.head? ≠ some (ch '[')) (hread : spirit.lexEscapeCh x = some (c, d :: rest))
    (hd : d ≠ ch '-') (rr : RangeRun) :
    cclLoop spirit (n + 1) x rr = cclLoop spirit n (d :: rest) (rr.set c c) := by
  cases x with
  | nil => exact absurd rfl hne
  | cons e x =>
    rw [cclLoop, if_neg (fun heq : e = ch ']' => hclose (congrArg some heq)),
      if_neg (fun heq : e = ch '[' => hopen (congrArg some heq)), hread]
    simp only [if_neg hd]

omit h in
theorem cclLoop_range {c₁ c₂ : UInt8} {y : Text} (hne : x ≠ []) (hclose : x.head? ≠ some (ch ']'))
    (hopen : x.head? ≠ some (ch '[')) (hread : spirit.lexEscapeCh x = some (c₁, ch '-' :: y))
    (hread' : spirit.lexEscapeCh y = some (c₂, rest)) (hlt : c₁.toInt8 < c₂.toInt8)
    (rr : RangeRun) :
    cclLoop spirit (n + 1) x rr = cclLoop spirit n rest (rr.set c₁ c₂) := by
  cases x with
  | nil => exact absurd rfl hne
  | cons e x =>
    rw [cclLoop, if_neg (fun heq : e = ch ']' => hclose (congrArg some heq)),
      if_neg (fun heq : e = ch '[' => hopen (congrArg some heq)), hread]
    simp only [if_true, hread', if_pos hlt]

omit h in
theorem cclLoop_named (name : CclExpr) (rr : RangeRun) :
    cclLoop spirit (n + 1) (name.text ++ x) rr = cclLoop spirit n x (fillCcl spirit rr name) := by
  have hfind := name.find_append x
  have hdrop := name.dropWhile_text x
  rw [name.text_eq, List.cons_append] at hfind hdrop ⊢
  rw [cclLoop, if_neg (by decide), if_pos rfl]
  simp only [hfind, hdrop]

/-- The loop of the action finds the characters of the parts. -/
theorem cclLoop_classText (hitems : ClassAllowed items) (rr : RangeRun)
    (hn : (classText items ++ [ch ']']).length < n) :
    cclLoop spirit n (classText items ++ [ch ']']) rr =
      .ok fun c => rr c || items.any fun item => item.has spirit c := by
  induction items generalizing n rr with
  | nil =>
    obtain ⟨n, rfl⟩ := Nat.exists_eq_succ_of_ne_zero (Nat.ne_of_gt (Nat.zero_lt_of_lt hn))
    rw [classText, List.flatMap_nil, List.nil_append, cclLoop, if_pos rfl]
    simp only [List.any_nil, Bool.or_false]
  | cons item items ih =>
    obtain ⟨n, rfl⟩ := Nat.exists_eq_succ_of_ne_zero (Nat.ne_of_gt (Nat.zero_lt_of_lt hn))
    have hstep : cclLoop spirit (n + 1) (item.text ++ (classText items ++ [ch ']'])) rr =
        cclLoop spirit n (classText items ++ [ch ']']) (fun c => rr c || item.has spirit c) ∧
        ClassAllowed items ∧ 0 < item.text.length := by
      cases item with
      | one letter =>
        obtain ⟨hletter, hhead, hitems⟩ := hitems
        have hrest := classText_head (x := [ch ']']) rfl hhead
        have hpos := length_letter_pos letter
        have hread : spirit.lexEscapeCh (letter.text ++ (classText items ++ [ch ']'])) =
            some (letter.value, classText items ++ [ch ']']) := lexEscapeCh_letter h hletter
        refine ⟨?_, hitems, hpos⟩
        generalize hy : classText items ++ [ch ']'] = y at hrest hread ⊢
        cases y with
        | nil => exact absurd hy (List.append_ne_nil_of_right_ne_nil _ (List.cons_ne_nil _ _))
        | cons d y =>
          rw [CclItem.text, cclLoop_one (fun hnil => by
              rw [List.append_eq_nil_iff.mp hnil |>.1] at hpos
              exact absurd hpos (Nat.lt_irrefl 0))
            (Letter.head?_ne hletter (by decide) (by decide))
            (Letter.head?_ne hletter (by decide) (by decide)) hread
            (fun heq => hrest (congrArg some heq)), RangeRun.set_self]
          rfl
      | range first last =>
        obtain ⟨⟨hfirst, hlast, hlt⟩, hitems⟩ := hitems
        have hpos := length_letter_pos first
        refine ⟨?_, hitems, ?_⟩
        · rw [CclItem.text, List.append_assoc, List.cons_append,
            cclLoop_range (fun hnil => by
              rw [List.append_eq_nil_iff.mp hnil |>.1] at hpos
              exact absurd hpos (Nat.lt_irrefl 0))
            (Letter.head?_ne hfirst (by decide) (by decide))
            (Letter.head?_ne hfirst (by decide) (by decide)) (lexEscapeCh_letter h hfirst)
            (lexEscapeCh_letter h hlast) hlt]
          rfl
        · rw [CclItem.text, List.length_append]
          exact Nat.lt_of_lt_of_le hpos (Nat.le_add_right _ _)
      | named name =>
        exact ⟨cclLoop_named name rr, hitems.2, Nat.lt_of_lt_of_le (by decide) name.six_le⟩
    obtain ⟨hstep, hitems, hlt⟩ := hstep
    rw [classText_cons] at hn ⊢
    rw [List.length_append] at hn
    rw [hstep, ih hitems _ (by omega)]
    simp only [List.any_cons, Bool.or_assoc]

end

/-! ## Leaves -/

/-- A class as it is written. -/
structure CharClass where
  negated : Bool
  items : List CclItem

namespace CharClass

def text (cls : CharClass) : Text :=
  ch '[' :: ((if cls.negated then [ch '^'] else []) ++ (classText cls.items ++ [ch ']']))

def chars (spirit : Spirit) (cls : CharClass) : RangeRun := fun c =>
  cls.negated != cls.items.any fun item => item.has spirit c

/-- A class that is not negated does not begin with `^`. -/
def Allowed (cls : CharClass) : Prop :=
  ClassAllowed cls.items ∧
    (cls.negated = false → (classText cls.items).head? ≠ some (ch '^'))

end CharClass

/-- The texts of one node: any character, a letter, a string or a class. -/
inductive IsWritten (spirit : Spirit) : Text → Node → Prop
  | any : IsWritten spirit [ch '.'] (createNodes anyChar)
  | char {letter : Letter} : letter.Allowed (operators ++ ['"', '[']) →
      IsWritten spirit letter.text (.charNode letter.value 0)
  | string {letters : Letters} : letters.Allowed ['"', '\\'] →
      IsWritten spirit (ch '"' :: (letters.text ++ [ch '"'])) letters.node
  | ccl {cls : CharClass} : cls.Allowed →
      IsWritten spirit cls.text (createNodes (cls.chars spirit))

section

variable {spirit : Spirit} (h : spirit.Documented) {letters : Letters} {cls : CharClass}
  {rest : Text} {stack : NodeStack} {n : ℕ}

include h

theorem quoted_hit (hletters : letters.Allowed ['"', '\\'])
    (hn : (ch '"' :: (letters.text ++ [ch '"']) ++ rest).length ≤ n) :
    spirit.quoted n (ch '"' :: (letters.text ++ [ch '"']) ++ rest) stack =
      .ok (some rest, stack) := by
  obtain ⟨hfirst, hmore⟩ := List.forall_mem_cons.mp hletters
  have htext : ch '"' :: (letters.text ++ [ch '"']) ++ rest =
      ch '"' :: (letters.first.text ++ (letters.more.flatMap Letter.text ++ ch '"' :: rest)) := by
    rw [Letters.text]
    simp
  rw [htext, List.length_cons, List.length_append] at hn
  rw [htext, Spirit.quoted, andThen_of_hit (chP_hit '"'), Spirit.string]
  have hstring : andThen spirit.stringChar (many .fuel spirit.stringChar n)
      (letters.first.text ++ (letters.more.flatMap Letter.text ++ ch '"' :: rest)) stack =
      .ok (some (ch '"' :: rest), stack) := by
    rw [andThen_of_hit (stringChar_letter h hfirst)]
    exact many_stringChar h hmore (by omega)
  rw [andThen_of_hit hstring]
  exact chP_hit '"'

theorem readString_letters (hletters : letters.Allowed ['"', '\\']) :
    readString spirit (ch '"' :: (letters.text ++ [ch '"'])) = .ok letters.node := by
  obtain ⟨hfirst, hmore⟩ := List.forall_mem_cons.mp hletters
  have hquote : (letters.text ++ [ch '"']).head? ≠ some (ch '"') := by
    rw [Letters.text, List.append_assoc]
    exact Letter.head?_ne hfirst (by decide) (by decide)
  have hread : spirit.lexEscapeCh (letters.text ++ [ch '"']) =
      some (letters.first.value, letters.more.flatMap Letter.text ++ [ch '"']) := by
    rw [Letters.text, List.append_assoc]
    exact lexEscapeCh_letter h hfirst
  rw [readString, if_neg (fun hne => hne rfl), if_neg hquote, hread]
  exact stringLoop_letters h hmore _ (Nat.lt_succ_self _)

theorem bracketed_hit (hcls : cls.Allowed) (hn : (cls.text ++ rest).length ≤ n) :
    spirit.bracketed n (cls.text ++ rest) stack = .ok (some rest, stack) := by
  obtain ⟨hitems, hcaret⟩ := hcls
  have htext : cls.text ++ rest = ch '[' :: ((if cls.negated then [ch '^'] else []) ++
      (classText cls.items ++ ch ']' :: rest)) := by
    rw [CharClass.text]
    simp
  rw [htext, List.length_cons, List.length_append] at hn
  rw [htext, Spirit.bracketed, andThen_of_hit (chP_hit '[')]
  have hopt : optional (chP '^') ((if cls.negated then [ch '^'] else []) ++
      (classText cls.items ++ ch ']' :: rest)) stack =
      .ok (some (classText cls.items ++ ch ']' :: rest), stack) := by
    cases hneg : cls.negated with
    | true => exact optional_of_hit (chP_hit '^')
    | false =>
      have hhead := head?_append_ne (hcaret hneg) (y := ch ']' :: rest) (head?_ne (by decide))
      exact optional_of_miss (chP_miss hhead)
  rw [andThen_of_hit hopt, andThen_of_hit (ccl_classText h hitems (by omega))]
  exact chP_hit ']'

theorem readCcl_text (hcls : cls.Allowed) :
    readCcl spirit cls.text = .ok (createNodes (cls.chars spirit)) := by
  obtain ⟨hitems, hcaret⟩ := hcls
  have hloop : ∀ {n : ℕ}, (classText cls.items ++ [ch ']']).length < n →
      cclLoop spirit n (classText cls.items ++ [ch ']']) noChars =
        .ok fun c => cls.items.any fun item => item.has spirit c := by
    intro n hn
    rw [cclLoop_classText h hitems noChars hn]
    rfl
  have hclosed : (classText cls.items ++ [ch ']']) ≠ [] :=
    List.append_ne_nil_of_right_ne_nil _ (List.cons_ne_nil _ _)
  cases hneg : cls.negated with
  | true =>
    have hchars : cls.chars spirit =
        negateRangeRun fun c => cls.items.any fun item => item.has spirit c := by
      funext c
      rw [CharClass.chars, hneg, negateRangeRun]
      cases cls.items.any fun item => item.has spirit c <;> rfl
    rw [CharClass.text, hneg, if_pos rfl, List.singleton_append, readCcl,
      if_neg (fun hne => hne rfl), if_pos rfl, hloop (Nat.lt_succ_self _), hchars]
    rfl
  | false =>
    have hchars : cls.chars spirit = fun c => cls.items.any fun item => item.has spirit c := by
      funext c
      rw [CharClass.chars, hneg]
      cases cls.items.any fun item => item.has spirit c <;> rfl
    have hhead := head?_append_ne (hcaret hneg) (y := [ch ']']) (head?_ne (by decide))
    have hcase := hloop (Nat.lt_succ_self _)
    rw [CharClass.text, hneg, if_neg Bool.false_ne_true, List.nil_append, hchars]
    generalize classText cls.items ++ [ch ']'] = x at hhead hcase hclosed ⊢
    cases x with
    | nil => exact absurd rfl hclosed
    | cons d x =>
      rw [readCcl, if_neg (fun hne => hne rfl),
        if_neg (fun heq : d = ch '^' => hhead (congrArg some heq)), hcase]
      rfl

end

end P4LS.Slex
