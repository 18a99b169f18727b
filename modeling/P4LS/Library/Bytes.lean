import Mathlib.Algebra.Group.Int.Defs
import Mathlib.Algebra.Group.Nat.Defs
import Mathlib.Data.List.TakeWhile

/-!
# Byte strings

A `std::string` is a list of bytes.  This module has the character
classification of the C locale, the C-string view of a byte string, and the
decimal conversions of the standard library.
-/

abbrev Bytes := List UInt8

namespace Bytes

/-- The bytes of a literal. -/
def str (s : String) : Bytes := s.toUTF8.data.toList

/-- The byte of an ASCII character. -/
def ch (c : Char) : UInt8 := UInt8.ofNat c.toNat

@[simp] theorem str_inj {s t : String} : str s = str t ↔ s = t := by
  constructor
  · intro h
    apply String.toByteArray_inj.mp
    exact ByteArray.ext (Array.toList_inj.mp h)
  · intro h
    rw [h]

/-- What is left of a byte string that is handed over as a `const char*`: the
bytes before the first NUL. -/
def cstr (s : Bytes) : Bytes := s.takeWhile (· != 0)

theorem cstr_eq_self {s : Bytes} (h : 0 ∉ s) : cstr s = s := by
  unfold cstr
  apply List.takeWhile_eq_self_iff.mpr
  intro c hc
  simp only [bne_iff_ne, ne_eq]
  intro hzero
  rw [hzero] at hc
  exact h hc

theorem cstr_eq_self_iff {s : Bytes} : cstr s = s ↔ 0 ∉ s := by
  constructor
  · intro h hmem
    rw [← h] at hmem
    exact absurd (List.mem_takeWhile_imp hmem) (by decide)
  · exact cstr_eq_self

theorem takeWhile_congr {p q : UInt8 → Bool} {s : Bytes} (h : ∀ c ∈ s, p c = q c) :
    s.takeWhile p = s.takeWhile q := by
  induction s with
  | nil => rfl
  | cons c s ih =>
    rw [List.takeWhile_cons, List.takeWhile_cons, h c List.mem_cons_self,
      ih fun d hd => h d (List.mem_cons_of_mem c hd)]

/-- A run of characters of a class ends where the next one is not of the class. -/
theorem span_append {p : UInt8 → Bool} {s rest : Bytes} (hs : ∀ c ∈ s, p c = true)
    (hrest : rest.head?.any p = false) :
    (s ++ rest).takeWhile p = s ∧ (s ++ rest).dropWhile p = rest := by
  rw [List.takeWhile_append_of_pos hs, List.dropWhile_append_of_pos hs]
  cases rest with
  | nil => exact ⟨List.append_nil s, rfl⟩
  | cons d rest =>
    rw [List.head?_cons, Option.any_some] at hrest
    have hd : ¬p d = true := Bool.eq_false_iff.mp hrest
    rw [List.takeWhile_cons_of_neg hd, List.dropWhile_cons_of_neg hd]
    exact ⟨List.append_nil s, rfl⟩

theorem takeWhile_prefix_filter (p : UInt8 → Bool) (s : Bytes) :
    s.takeWhile p <+: s.filter p := by
  induction s with
  | nil => exact List.prefix_rfl
  | cons c s ih =>
    by_cases hc : p c = true
    · rw [List.takeWhile_cons_of_pos hc, List.filter_cons_of_pos hc]
      exact List.cons_prefix_cons.mpr ⟨rfl, ih⟩
    · rw [List.takeWhile_cons_of_neg hc]
      exact List.nil_prefix

/-- `std::string::find`: the offset of the first occurrence. -/
def find (needle : Bytes) : Bytes → Option Nat
  | [] => if needle = [] then some 0 else none
  | c :: s => if needle.isPrefixOf (c :: s) then some 0 else (find needle s).map (· + 1)

/-! ## Character classes of the C locale -/

def isspace (c : UInt8) : Bool := c == ch ' ' || (9 ≤ c && c ≤ 13)

def isdigit (c : UInt8) : Bool := ch '0' ≤ c && c ≤ ch '9'

def isalpha (c : UInt8) : Bool :=
  (ch 'a' ≤ c && c ≤ ch 'z') || (ch 'A' ≤ c && c ≤ ch 'Z')

def isalnum (c : UInt8) : Bool := isalpha c || isdigit c

/-- An inclusion of classes, checked on the 256 bytes. -/
theorem imp_of_all_bytes {p q : UInt8 → Bool}
    (h : (List.range 256).all (fun n => !p (UInt8.ofNat n) || q (UInt8.ofNat n)) = true)
    (c : UInt8) (hp : p c = true) : q c = true := by
  rw [List.all_eq_true] at h
  have hc := h c.toNat (List.mem_range.mpr c.toNat_lt)
  rw [UInt8.ofNat_toNat, hp] at hc
  exact hc

/-- A byte of a class is none of the bytes outside it. -/
theorem ne_of_class {p : UInt8 → Bool} {c d : UInt8} (hc : p c = true) (hd : p d = false) :
    c ≠ d := by
  intro heq
  rw [heq, hd] at hc
  exact Bool.false_ne_true hc

/-- Every byte is a 7-bit character. -/
def Ascii (s : Bytes) : Prop := ∀ c ∈ s, c < 128

/-- A property of all bytes of a string is decided on the bytes it has. -/
instance decidableForallMem (p : UInt8 → Prop) [DecidablePred p] (s : Bytes) :
    Decidable (∀ c ∈ s, p c) := List.decidableBAll p s

instance (s : Bytes) : Decidable (Ascii s) := decidableForallMem (· < 128) s

/-! ## Decimal numbers -/

/-- The value of a run of digits. -/
def digitsValue (base : Nat) (ds : Bytes) (start : Nat) : Nat :=
  ds.foldl (fun n d => base * n + (d.toNat - 48)) start

/-- `std::to_string` of an unsigned number. -/
def toDecimal (n : Nat) : Bytes := (Nat.toDigits 10 n).map ch

theorem toNat_ch_of_isDigit {c : Char} (h : c.isDigit = true) : (ch c).toNat = c.toNat := by
  have hlt : c.toNat < 256 := by
    simp only [Char.isDigit, Bool.and_eq_true, decide_eq_true_eq] at h
    have h2 : c.val.toNat ≤ 57 := UInt32.le_iff_toNat_le.mp h.2
    show c.val.toNat < 256
    omega
  simp only [ch, UInt8.toNat_ofNat']
  omega

theorem isdigit_iff {c : UInt8} : isdigit c = true ↔ 48 ≤ c.toNat ∧ c.toNat ≤ 57 := by
  unfold isdigit
  simp only [Bool.and_eq_true, decide_eq_true_eq, UInt8.le_iff_toNat_le]
  exact Iff.rfl

theorem isdigit_of_mem_toDecimal {n : Nat} {c : UInt8} (h : c ∈ toDecimal n) :
    isdigit c = true := by
  obtain ⟨d, hd, rfl⟩ := List.mem_map.mp h
  have hdig : d.isDigit = true := Nat.isDigit_of_mem_toDigits (by omega) (by omega) hd
  rw [isdigit_iff, toNat_ch_of_isDigit hdig]
  simp only [Char.isDigit, Bool.and_eq_true, decide_eq_true_eq] at hdig
  exact ⟨UInt32.le_iff_toNat_le.mp hdig.1, UInt32.le_iff_toNat_le.mp hdig.2⟩

theorem toDecimal_ne_nil (n : Nat) : toDecimal n ≠ [] := by
  simp [toDecimal, Nat.toDigits_ne_nil]

theorem digitsValue_map_ch {b : Nat} {cs : List Char} (h : ∀ c ∈ cs, c.isDigit = true)
    (start : Nat) : digitsValue b (cs.map ch) start = Nat.ofDigitChars b cs start := by
  induction cs generalizing start with
  | nil => rfl
  | cons c cs ih =>
    have hc := toNat_ch_of_isDigit (h c (by simp))
    have hrest := ih (fun d hd => h d (by simp [hd])) (b * start + (c.toNat - 48))
    simp only [digitsValue, List.map_cons, List.foldl_cons, hc] at hrest ⊢
    rw [hrest]
    rfl

/-- Reading back what `std::to_string` wrote. -/
theorem digitsValue_toDecimal (n : Nat) : digitsValue 10 (toDecimal n) 0 = n := by
  rw [toDecimal, digitsValue_map_ch
    (fun c hc => Nat.isDigit_of_mem_toDigits (by omega) (by omega) hc)]
  exact Nat.ofDigitChars_ten_toDigits

/-! ## Conversions that can throw -/

inductive ConversionError where
  | invalidArgument
  | outOfRange
  deriving DecidableEq

/-- The value of a digit or letter, as `strtol` counts it. -/
def digitValue (c : UInt8) : Nat :=
  if isdigit c then c.toNat - 48
  else if ch 'a' ≤ c && c ≤ ch 'z' then c.toNat - 87
  else if ch 'A' ≤ c && c ≤ ch 'Z' then c.toNat - 55
  else 36

/-- The longest run of digits of a base at the start. -/
def digitsOf (base : Nat) (s : Bytes) : Bytes := s.takeWhile (digitValue · < base)

/-- `strtol` without its bound: white space, a sign, the `0x` of base 16, and
the longest run of digits.  `none` when there is no digit. -/
def strtol (base : Nat) (s : Bytes) : Option Int :=
  let s := s.dropWhile isspace
  let negative := s.head? == some (ch '-')
  let s := if negative || s.head? == some (ch '+') then s.tail else s
  let hex := base == 16 && s.head? == some (ch '0') &&
    (s.tail.head? == some (ch 'x') || s.tail.head? == some (ch 'X')) &&
    (s.tail.tail.head?.any (digitValue · < 16))
  let ds := digitsOf base (if hex then s.drop 2 else s)
  if ds = [] then none
  else
    let value : Int := ds.foldl (fun n d => base * n + digitValue d) 0
    some (if negative then -value else value)

/-- `std::stoi`. -/
def stoi (s : Bytes) (base : Nat) : Except ConversionError Int :=
  match strtol base s with
  | none => .error .invalidArgument
  | some n => if -2 ^ 31 ≤ n ∧ n < 2 ^ 31 then .ok n else .error .outOfRange

/-- `std::stoull` of a string of digits. -/
def stoull (s : Bytes) : Except ConversionError Nat :=
  let ds := s.takeWhile isdigit
  if ds = [] then .error .invalidArgument
  else if digitsValue 10 ds 0 < 2 ^ 64 then .ok (digitsValue 10 ds 0)
  else .error .outOfRange

end Bytes
