import P4LS.Slex.Actions

/-!
# The syntax of the regular expressions

An expression as it is written: its parts at the three levels of the grammar, so that only texts
that bind as they are meant can be built.  Each has its text, the tree that the actions make of its
parts, and the texts it stands for.  The tree stands for the same texts.
-/

namespace P4LS.Slex

open Bytes

/-- The rules of the grammar whose texts nest. -/
inductive Level where
  | singleton
  | series
  | re

/-- The text of a number and the number. -/
structure Numeral where
  digits : Text
  value : ℕ

/-- The parts of an expression.  A leaf is a text that reads as one node. -/
inductive Regex : Level → Type
  | leaf (text : Text) (node : Node) : Regex .singleton
  | group (r : Regex .re) : Regex .singleton
  | star (r : Regex .singleton) : Regex .singleton
  | plus (r : Regex .singleton) : Regex .singleton
  | optional (r : Regex .singleton) : Regex .singleton
  | rep1 (r : Regex .singleton) (count : Numeral) : Regex .singleton
  | rep2 (r : Regex .singleton) (count : Numeral) : Regex .singleton
  | rep3 (r : Regex .singleton) (count1 count2 : Numeral) : Regex .singleton
  | single (r : Regex .singleton) : Regex .series
  | concat (r : Regex .series) (s : Regex .singleton) : Regex .series
  | only (r : Regex .series) : Regex .re
  | or (r : Regex .re) (s : Regex .series) : Regex .re

/-- The digits stand for the number, which is below a bound. -/
structure Numeral.Reads (bound : ℕ) (count : Numeral) : Prop where
  nonempty : count.digits ≠ []
  digit : ∀ c ∈ count.digits, isdigit c = true
  value_eq : digitsValue 10 count.digits 0 = count.value
  lt : count.value < bound

namespace Regex

/-- The expression as it is written. -/
def text : {l : Level} → Regex l → Text
  | _, leaf text _ => text
  | _, group r => ch '(' :: (r.text ++ [ch ')'])
  | _, star r => r.text ++ [ch '*']
  | _, plus r => r.text ++ [ch '+']
  | _, optional r => r.text ++ [ch '?']
  | _, rep1 r count => r.text ++ ch '\x7b' :: (count.digits ++ [ch '\x7d'])
  | _, rep2 r count => r.text ++ ch '\x7b' :: (count.digits ++ [ch ',', ch '\x7d'])
  | _, rep3 r count1 count2 =>
    r.text ++ ch '\x7b' :: (count1.digits ++ ch ',' :: (count2.digits ++ [ch '\x7d']))
  | _, single r => r.text
  | _, concat r s => r.text ++ s.text
  | _, only r => r.text
  | _, or r s => r.text ++ ch '|' :: s.text

/-- The tree that the actions make. -/
def tree : {l : Level} → Regex l → Node
  | _, leaf _ node => node
  | _, group r => r.tree
  | _, star r => .starNode r.tree
  | _, plus r => .catNode r.tree (.starNode r.tree)
  | _, optional r => optionalNode r.tree
  | _, rep1 r count => repeatNode r.tree count.value
  | _, rep2 r count => .catNode (repeatNode r.tree count.value) (.starNode r.tree)
  | _, rep3 r count1 count2 =>
    .catNode (repeatNode r.tree count1.value)
      (repeatNode (optionalNode r.tree) (count2.value - count1.value))
  | _, single r => r.tree
  | _, concat r s => .catNode r.tree s.tree
  | _, only r => r.tree
  | _, or r s => .orNode r.tree s.tree

/-- The texts that the expression stands for. -/
def denote : {l : Level} → Regex l → Language UInt8
  | _, leaf _ node => node.lang
  | _, group r => r.denote
  | _, star r => KStar.kstar r.denote
  | _, plus r => r.denote * KStar.kstar r.denote
  | _, optional r => r.denote + 1
  | _, rep1 r count => r.denote ^ count.value
  | _, rep2 r count => r.denote ^ count.value * KStar.kstar r.denote
  | _, rep3 r count1 count2 =>
    {x | ∃ k, count1.value ≤ k ∧ k ≤ count2.value ∧ x ∈ r.denote ^ k}
  | _, single r => r.denote
  | _, concat r s => r.denote * s.denote
  | _, only r => r.denote
  | _, or r s => r.denote + s.denote

/-- The leaves are as given, and the counts are numbers below a bound that may be repeated. -/
def Over (isLeaf : Text → Node → Prop) (bound : ℕ) : {l : Level} → Regex l → Prop
  | _, leaf text node => isLeaf text node
  | _, group r => r.Over isLeaf bound
  | _, star r => r.Over isLeaf bound
  | _, plus r => r.Over isLeaf bound
  | _, optional r => r.Over isLeaf bound
  | _, rep1 r count => r.Over isLeaf bound ∧ count.Reads bound ∧ count.value ≠ 0
  | _, rep2 r count => r.Over isLeaf bound ∧ count.Reads bound ∧ count.value ≠ 0
  | _, rep3 r count1 count2 => r.Over isLeaf bound ∧ count1.Reads bound ∧ count2.Reads bound ∧
      count1.value ≠ 0 ∧ count1.value < count2.value
  | _, single r => r.Over isLeaf bound
  | _, concat r s => r.Over isLeaf bound ∧ s.Over isLeaf bound
  | _, only r => r.Over isLeaf bound
  | _, or r s => r.Over isLeaf bound ∧ s.Over isLeaf bound

end Regex

/-! ## The texts of the tree -/

theorem lang_iterate (n : Node) (k : ℕ) :
    ((fun nodes => Node.catNode nodes n)^[k] n).lang = n.lang ^ (k + 1) := by
  induction k with
  | zero => rw [Function.iterate_zero, id_eq, pow_one]
  | succ k ih => rw [Function.iterate_succ_apply', Node.lang, ih, ← pow_succ]

/-- A node that is repeated stands for as many of its texts. -/
theorem lang_repeatNode (n : Node) {num : ℕ} (hzero : num ≠ 0) (hlt : num < 2 ^ 31) :
    (repeatNode n num).lang = n.lang ^ num := by
  rw [repeatNode, if_pos hlt, lang_iterate, Nat.sub_add_cancel (Nat.pos_of_ne_zero hzero)]

theorem lang_optionalNode (n : Node) : (optionalNode n).lang = n.lang + 1 := rfl

theorem mem_add_one_pow (L : Language UInt8) (n : ℕ) (x : Text) :
    x ∈ (L + 1) ^ n ↔ ∃ k ≤ n, x ∈ L ^ k := by
  induction n generalizing x with
  | zero =>
    constructor
    · intro h
      exact ⟨0, Nat.le_refl 0, h⟩
    · rintro ⟨k, hk, h⟩
      rwa [Nat.le_zero.mp hk] at h
  | succ n ih =>
    rw [pow_succ, Language.mem_mul]
    constructor
    · rintro ⟨a, ha, b, hb, rfl⟩
      obtain ⟨k, hk, hak⟩ := (ih a).mp ha
      rcases (Language.mem_add _ _ _).mp hb with hb | hb
      · exact ⟨k + 1, Nat.succ_le_succ hk, pow_succ L k ▸ Language.append_mem_mul hak hb⟩
      · rw [(Language.mem_one b).mp hb, List.append_nil]
        exact ⟨k, Nat.le_succ_of_le hk, hak⟩
    · rintro ⟨k, hk, h⟩
      rcases Nat.lt_or_eq_of_le hk with hlt | rfl
      · exact ⟨x, (ih x).mpr ⟨k, Nat.lt_succ_iff.mp hlt, h⟩, [],
          (Language.mem_add _ _ _).mpr (.inr Language.nil_mem_one), List.append_nil x⟩
      · rw [pow_succ, Language.mem_mul] at h
        obtain ⟨a, ha, b, hb, rfl⟩ := h
        exact ⟨a, (ih a).mpr ⟨n, Nat.le_refl n, ha⟩, b,
          (Language.mem_add _ _ _).mpr (.inl hb), rfl⟩

/-- A number of texts, and as many as are left to the second number. -/
theorem pow_mul_add_one_pow (L : Language UInt8) {n m : ℕ} (h : n ≤ m) :
    L ^ n * (L + 1) ^ (m - n) = {x | ∃ k, n ≤ k ∧ k ≤ m ∧ x ∈ L ^ k} := by
  apply Language.ext
  intro x
  rw [Language.mem_mul]
  constructor
  · rintro ⟨a, ha, b, hb, rfl⟩
    obtain ⟨k, hk, hbk⟩ := (mem_add_one_pow L (m - n) b).mp hb
    exact ⟨n + k, Nat.le_add_right n k, by omega, pow_add L n k ▸ Language.append_mem_mul ha hbk⟩
  · rintro ⟨k, hnk, hkm, hx⟩
    rw [← Nat.add_sub_cancel' hnk, pow_add, Language.mem_mul] at hx
    obtain ⟨a, ha, b, hb, rfl⟩ := hx
    exact ⟨a, ha, b, (mem_add_one_pow L (m - n) b).mpr ⟨k - n, by omega, hb⟩, rfl⟩

/-- The tree of an expression stands for the texts of the expression. -/
theorem Regex.lang_tree {isLeaf : Text → Node → Prop} {l : Level} {r : Regex l}
    (h : r.Over isLeaf (2 ^ 31)) : r.tree.lang = r.denote := by
  induction r with
  | leaf text node => rfl
  | group r ih => exact ih h
  | star r ih => rw [tree, Node.lang, ih h, denote]
  | plus r ih => rw [tree, Node.lang, Node.lang, ih h, denote]
  | optional r ih => rw [tree, lang_optionalNode, ih h, denote]
  | rep1 r count ih =>
    obtain ⟨hr, hcount, hzero⟩ := h
    rw [tree, lang_repeatNode _ hzero hcount.lt, ih hr, denote]
  | rep2 r count ih =>
    obtain ⟨hr, hcount, hzero⟩ := h
    rw [tree, Node.lang, lang_repeatNode _ hzero hcount.lt, Node.lang, ih hr, denote]
  | rep3 r count1 count2 ih =>
    obtain ⟨hr, hcount1, hcount2, hzero, hlt⟩ := h
    have hdiff : count2.value - count1.value < 2 ^ 31 :=
      Nat.lt_of_le_of_lt (Nat.sub_le _ _) hcount2.lt
    rw [tree, Node.lang, lang_repeatNode _ hzero hcount1.lt,
      lang_repeatNode _ (Nat.sub_ne_zero_of_lt hlt) hdiff, lang_optionalNode, ih hr, denote,
      pow_mul_add_one_pow _ hlt.le]
  | single r ih => exact ih h
  | concat r s ihr ihs => rw [tree, Node.lang, ihr h.1, ihs h.2, denote]
  | only r ih => exact ih h
  | or r s ihr ihs => rw [tree, Node.lang, ihr h.1, ihs h.2, denote]

end P4LS.Slex
