import Mathlib.Algebra.Group.Int.Defs
import Mathlib.Algebra.Group.Nat.Defs
import P4LS.Library.Outcome

/-!
# Integers of a C program

The operations on a 32-bit `int` as the language defines them.  A shift by a
count that is negative or not below the width has no result, nor has an
operation whose result does not fit.  Where there is a result it is the one of
the wrapping operation.
-/

namespace CInt

/-- Why an operation has no result. -/
inductive Undefined where
  | shift
  | overflow
  deriving DecidableEq

def Fits (n : Int) : Prop := -2 ^ 31 ≤ n ∧ n < 2 ^ 31

instance (n : Int) : Decidable (Fits n) := inferInstanceAs (Decidable (_ ∧ _))

/-- `a << n`.  The result may use the sign bit, but no bit is lost. -/
def shl (a n : Int32) : Except Undefined Int32 :=
  if n < 0 ∨ 32 ≤ n then .error .shift
  else if a < 0 ∨ 2 ^ 32 ≤ a.toInt * 2 ^ n.toInt.toNat then .error .overflow
  else .ok (a <<< n)

/-- `a - b` -/
def sub (a b : Int32) : Except Undefined Int32 :=
  if Fits (a.toInt - b.toInt) then .ok (a - b) else .error .overflow

/-- `(1 << n) - 1` -/
def lowMask (n : Int32) : Except Undefined Int32 := do sub (← shl 1 n) 1

theorem shl_eq_ok {a n c : Int32} (h : shl a n = .ok c) : c = a <<< n := by
  unfold shl at h
  split at h
  · cases h
  split at h
  · cases h
  · exact (Except.ok.inj h).symm

theorem sub_eq_ok {a b c : Int32} (h : sub a b = .ok c) : c = a - b := by
  unfold sub at h
  split at h
  · exact (Except.ok.inj h).symm
  · cases h

theorem lowMask_eq_ok {n c : Int32} (h : lowMask n = .ok c) : c = (1 <<< n) - 1 := by
  obtain ⟨a, ha, hc⟩ := Except.bind_eq_ok.mp h
  rw [sub_eq_ok hc, shl_eq_ok ha]

/-- A mask of 31 bits or more has no result: the shift or the subtraction has none. -/
theorem lowMask_undefined {n : Int32} (h : 31 ≤ n) : ∃ u, lowMask n = .error u := by
  by_cases hwide : n < 0 ∨ 32 ≤ n
  · exact ⟨.shift, by rw [lowMask, shl, if_pos hwide]; rfl⟩
  · have heq : n = 31 := by
      apply Int32.toInt_inj.mp
      rw [Int32.le_iff_toInt_le] at h
      rw [not_or, Int32.le_iff_toInt_le] at hwide
      have h31 : (31 : Int32).toInt = 31 := rfl
      have h32 : (32 : Int32).toInt = 32 := rfl
      omega
    exact ⟨.overflow, by rw [heq]; decide⟩

/-! ## Masks -/

theorem lowMask_ofNat : ∀ n < 31, lowMask (Int32.ofNat n) = .ok (Int32.ofNat (2 ^ n - 1)) := by
  decide

theorem shl_one_ofNat : ∀ n < 31, shl 1 (Int32.ofNat n) = .ok (Int32.ofNat (2 ^ n)) := by
  decide

/-- The difference of two numbers that are not negative fits. -/
theorem sub_ofNat {a b : Nat} (ha : a < 2 ^ 31) (hb : b < 2 ^ 31) :
    sub (Int32.ofNat a) (Int32.ofNat b) = .ok (Int32.ofNat a - Int32.ofNat b) := by
  rw [sub, Int32.toInt_ofNat_of_lt ha, Int32.toInt_ofNat_of_lt hb]
  exact if_pos ⟨by omega, by omega⟩

theorem ofNat_succ_sub_one : ∀ n < 30, Int32.ofNat (n + 1) - Int32.ofNat 1 = Int32.ofNat n := by
  decide

theorem shl_one_sub_one : ∀ n < 32, 1 <<< Int32.ofNat n - 1 = Int32.ofNat (2 ^ n - 1) := by
  decide

theorem lowMask_half : ∀ n < 31, Int32.ofNat (2 ^ (n + 1) - 1) >>> 1 = Int32.ofNat (2 ^ n - 1) := by
  decide

theorem shl_one_pred : ∀ n < 31, 1 <<< (Int32.ofNat (n + 1) - 1) = Int32.ofNat (2 ^ n) := by
  decide

theorem ofNat_and (a b : Nat) : Int32.ofNat a &&& Int32.ofNat b = Int32.ofNat (a &&& b) := by
  apply Int32.toBitVec_inj.mp
  rw [Int32.toBitVec_and, Int32.toBitVec_ofNat', Int32.toBitVec_ofNat', Int32.toBitVec_ofNat',
    BitVec.ofNat_and]

/-- A mask cuts a number to its low bits. -/
theorem lowMask_and (n v : Nat) :
    Int32.ofNat (2 ^ n - 1) &&& Int32.ofNat v = Int32.ofNat (v % 2 ^ n) := by
  rw [ofNat_and, Nat.and_comm, Nat.and_two_pow_sub_one_eq_mod]

/-- The highest bit of a number. -/
theorem and_highest {n u : Nat} (hu : u < 2 ^ (n + 1)) :
    u &&& 2 ^ n = if 2 ^ n ≤ u then 2 ^ n else 0 := by
  have hbit : u.testBit n = decide (2 ^ n ≤ u) := by
    by_cases h : 2 ^ n ≤ u
    · rw [Nat.testBit_of_two_pow_le_and_two_pow_add_one_gt h hu, decide_eq_true h]
    · rw [Nat.testBit_lt_two_pow (Nat.not_le.mp h), decide_eq_false h]
  apply Nat.eq_of_testBit_eq
  intro i
  rw [Nat.testBit_and, Nat.testBit_two_pow]
  by_cases hi : n = i
  · rw [← hi, hbit]
    by_cases h : 2 ^ n ≤ u <;> simp [h]
  · by_cases h : 2 ^ n ≤ u <;> simp [h, hi]

/-- The low bits without the highest of them, less the highest: the number these bits are in
two's complement. -/
theorem sign_extend {n : Nat} (hn : n < 31) (v : Nat) :
    ((Int32.ofNat (v % 2 ^ (n + 1)) &&& Int32.ofNat (2 ^ n - 1)) -
      (Int32.ofNat (v % 2 ^ (n + 1)) &&& Int32.ofNat (2 ^ n))).toInt =
      (BitVec.ofNat (n + 1) v).toInt := by
  have hpow : 2 ^ n ≤ 2 ^ 30 := Nat.pow_le_pow_right (by decide) (by omega)
  have hsucc : 2 ^ (n + 1) = 2 * 2 ^ n := Nat.pow_succ'
  have hu : v % 2 ^ (n + 1) < 2 ^ (n + 1) := Nat.mod_lt _ (Nat.two_pow_pos _)
  rw [BitVec.toInt_eq_toNat_cond, BitVec.toNat_ofNat, ofNat_and, ofNat_and, and_highest hu,
    Nat.and_two_pow_sub_one_eq_mod, Int32.toInt_sub]
  generalize v % 2 ^ (n + 1) = u at hu
  have hmod : u % 2 ^ n = if 2 ^ n ≤ u then u - 2 ^ n else u := by
    by_cases h : 2 ^ n ≤ u
    · rw [if_pos h, Nat.mod_eq_sub_mod h, Nat.mod_eq_of_lt (by omega)]
    · rw [if_neg h, Nat.mod_eq_of_lt (by omega)]
  rw [hmod]
  by_cases h : 2 ^ n ≤ u
  · rw [if_pos h, if_pos h, if_neg (by omega), Int32.toInt_ofNat_of_lt (by omega),
      Int32.toInt_ofNat_of_lt (by omega), Int.bmod_eq_of_le (by omega) (by omega)]
    omega
  · rw [if_neg h, if_neg h, if_pos (by omega), Int32.toInt_ofNat_of_lt (by omega),
      Int32.toInt_ofNat_of_lt (by omega), Int.bmod_eq_of_le (by omega) (by omega)]
    omega

/-- `v & mask` for a mask of the low bits. -/
theorem mask_unsigned {n : Nat} (hn : n < 32) (v : Nat) :
    (1 <<< Int32.ofNat n - 1) &&& Int32.ofNat v = Int32.ofNat (v % 2 ^ n) := by
  rw [shl_one_sub_one n hn, lowMask_and]

/-- `(v & (mask >> 1)) - (v & (1 << (n - 1)))` for a mask of the low bits. -/
theorem mask_signed {n : Nat} (hn : n < 31) (v : Nat) :
    ((Int32.ofNat (v % 2 ^ (n + 1)) &&& ((1 <<< Int32.ofNat (n + 1) - 1) >>> 1)) -
      (Int32.ofNat (v % 2 ^ (n + 1)) &&& (1 <<< (Int32.ofNat (n + 1) - 1)))).toInt =
      (BitVec.ofNat (n + 1) v).toInt := by
  rw [shl_one_sub_one (n + 1) (by omega), lowMask_half n hn, shl_one_pred n hn, sign_extend hn]

/-! ## Counts of 32 and more

The hardware takes the count of a shift modulo 32. -/

theorem smod_32 {w : Nat} (hw : w < 2 ^ 31) :
    (BitVec.ofNat 32 w).smod 32 = BitVec.ofNat 32 (w % 32) := by
  have hmsb : (BitVec.ofNat 32 w).msb = false := by
    rw [BitVec.msb_eq_false_iff_two_mul_lt, BitVec.toNat_ofNat, Nat.mod_eq_of_lt (by omega)]
    omega
  have hcount : (32 : BitVec 32).msb = false := rfl
  rw [BitVec.smod_eq, hmsb, hcount]
  apply BitVec.eq_of_toNat_eq
  have h32 : (32 : BitVec 32).toNat = 32 := rfl
  rw [BitVec.umod_eq, BitVec.toNat_umod, BitVec.toNat_ofNat, BitVec.toNat_ofNat, h32]
  omega

theorem shl_one_mod {w : Nat} (hw : w < 2 ^ 31) :
    (1 : Int32) <<< Int32.ofNat w = 1 <<< Int32.ofNat (w % 32) := by
  apply Int32.toBitVec_inj.mp
  rw [Int32.toBitVec_shiftLeft, Int32.toBitVec_shiftLeft, Int32.toBitVec_ofNat',
    Int32.toBitVec_ofNat', smod_32 hw, smod_32 (Nat.lt_of_le_of_lt (Nat.mod_le w 32) hw),
    Nat.mod_mod]

theorem ofNat_sub_one {w : Nat} (hpos : 0 < w) : Int32.ofNat w - 1 = Int32.ofNat (w - 1) := by
  obtain ⟨n, rfl⟩ : ∃ n, w = n + 1 := ⟨w - 1, by omega⟩
  rw [Int32.ofNat_add, Nat.add_sub_cancel]
  exact Int32.add_sub_cancel _ _

/-- `v & mask` for any width. -/
theorem mask_unsigned_mod {w v : Nat} (hw : w < 2 ^ 31) (hv : v < 2 ^ 31) :
    ((1 <<< Int32.ofNat w - 1) &&& Int32.ofNat v).toInt = (v % 2 ^ (w % 32) : Nat) := by
  rw [shl_one_mod hw, mask_unsigned (Nat.mod_lt w (by decide)),
    Int32.toInt_ofNat_of_lt (Nat.lt_of_le_of_lt (Nat.mod_le _ _) hv)]

/-- `(v & (mask >> 1)) - (v & (1 << (w - 1)))` for any width but zero. -/
theorem mask_signed_mod {w : Nat} (hpos : 0 < w) (hw : w < 2 ^ 31) {mask : Int32}
    (hmask : mask = 1 <<< Int32.ofNat w - 1) (v : Nat) :
    ((mask &&& Int32.ofNat v &&& (mask >>> 1)) -
      (mask &&& Int32.ofNat v &&& (1 <<< (Int32.ofNat w - 1)))).toInt =
      (BitVec.ofNat (w % 32) v).toInt := by
  have hlt : w % 32 < 32 := Nat.mod_lt w (by decide)
  rw [hmask, shl_one_mod hw, mask_unsigned hlt]
  rcases Nat.eq_zero_or_pos (w % 32) with hzero | hmod
  · -- a mask without bits leaves nothing of the value
    have hnil : Int32.ofNat (v % 2 ^ 0) = 0 := by rw [pow_zero, Nat.mod_one]; rfl
    rw [hzero, hnil, Int32.zero_and, Int32.zero_and, BitVec.toInt_zero_length]
    rfl
  · obtain ⟨n, hn⟩ : ∃ n, w % 32 = n + 1 := ⟨w % 32 - 1, by omega⟩
    have hcount : (w - 1) % 32 = n := by omega
    have hpred : (1 : Int32) <<< (Int32.ofNat w - 1) = 1 <<< (Int32.ofNat (n + 1) - 1) := by
      rw [ofNat_sub_one hpos, ofNat_sub_one (Nat.succ_pos n), shl_one_mod (by omega), hcount]
      rfl
    rw [hpred, hn]
    exact mask_signed (by omega) v

end CInt
