import P4LS.Library.Bytes

/-!
# Percent encoding

A byte outside a chosen class is written as a percent sign and its two
hexadecimal digits.  The encoding changes nothing exactly in the strings over
the class, and it can be undone when the percent sign is outside the class.
-/

namespace Percent

open Bytes

/-- The upper-case digit of a value below 16. -/
def hexDigit (n : Nat) : UInt8 := UInt8.ofNat (if n < 10 then 48 + n else 55 + n)

def escape (c : UInt8) : Bytes := [ch '%', hexDigit (c.toNat / 16), hexDigit (c.toNat % 16)]

def encodeByte (kept : UInt8 → Bool) (c : UInt8) : Bytes := if kept c then [c] else escape c

def encode (kept : UInt8 → Bool) (s : Bytes) : Bytes := s.flatMap (encodeByte kept)

theorem encode_cons (kept : UInt8 → Bool) (c : UInt8) (s : Bytes) :
    encode kept (c :: s) = encodeByte kept c ++ encode kept s := List.flatMap_cons

theorem encode_cons_kept {kept : UInt8 → Bool} {c : UInt8} (h : kept c = true) (s : Bytes) :
    encode kept (c :: s) = c :: encode kept s := by
  rw [encode_cons, encodeByte, if_pos h]
  rfl

theorem encode_cons_escaped {kept : UInt8 → Bool} {c : UInt8} (h : kept c = false) (s : Bytes) :
    encode kept (c :: s) = escape c ++ encode kept s := by
  rw [encode_cons, encodeByte, h]
  rfl

/-! ## What the encoding leaves alone -/

theorem length_le_encode (kept : UInt8 → Bool) (s : Bytes) :
    s.length ≤ (encode kept s).length := by
  induction s with
  | nil => exact Nat.le_refl 0
  | cons c s ih =>
    cases h : kept c with
    | true =>
      rw [encode_cons_kept h]
      exact Nat.succ_le_succ ih
    | false =>
      rw [encode_cons_escaped h, List.length_append, List.length_cons, escape]
      simp only [List.length_cons, List.length_nil]
      omega

/-- An escape makes the string longer, and no later byte makes up for it. -/
theorem encode_eq_self_iff {kept : UInt8 → Bool} {s : Bytes} :
    encode kept s = s ↔ ∀ c ∈ s, kept c = true := by
  induction s with
  | nil => exact iff_of_true rfl fun c hc => absurd hc List.not_mem_nil
  | cons c s ih =>
    rw [List.forall_mem_cons]
    cases h : kept c with
    | true => rw [encode_cons_kept h, List.cons_inj_right, ih, and_iff_right rfl]
    | false =>
      refine iff_of_false (fun heq => ?_) fun hc => Bool.false_ne_true hc.1
      have hlength := congrArg List.length heq
      have hle := length_le_encode kept s
      rw [encode_cons_escaped h, List.length_append, List.length_cons, escape] at hlength
      simp only [List.length_cons, List.length_nil] at hlength
      omega

/-- What no escape is made of comes from the string itself. -/
theorem mem_of_mem_encode {kept : UInt8 → Bool} {s : Bytes} {d : UInt8}
    (hd : ∀ c, d ∉ escape c) (h : d ∈ encode kept s) : d ∈ s ∧ kept d = true := by
  obtain ⟨c, hc, hmem⟩ := List.mem_flatMap.mp h
  rw [encodeByte] at hmem
  split_ifs at hmem with hkept
  · obtain rfl := List.mem_singleton.mp hmem
    exact ⟨hc, hkept⟩
  · exact absurd hmem (hd c)

/-! ## Undoing it -/

/-- The decoder that takes the two digits behind a percent sign for a byte. -/
def decode : Bytes → Bytes
  | [] => []
  | [c] => [c]
  | [c, d] => [c, d]
  | c :: hi :: lo :: s =>
    if c = ch '%' then UInt8.ofNat (16 * digitValue hi + digitValue lo) :: decode s
    else c :: decode (hi :: lo :: s)

theorem decode_cons {c : UInt8} (h : c ≠ ch '%') (s : Bytes) : decode (c :: s) = c :: decode s := by
  match s with
  | [] => rfl
  | [_] => rfl
  | _ :: _ :: _ => rw [decode, if_neg h]

theorem digitValue_hexDigit : ∀ n, n < 16 → digitValue (hexDigit n) = n := by decide

theorem decode_escape (c : UInt8) (s : Bytes) : decode (escape c ++ s) = c :: decode s := by
  have hlt : c.toNat < 256 := c.toNat_lt
  have hvalue : 16 * (c.toNat / 16) + c.toNat % 16 = c.toNat := Nat.div_add_mod _ _
  rw [escape, List.cons_append, List.cons_append, List.cons_append, List.nil_append, decode,
    if_pos rfl, digitValue_hexDigit _ (by omega), digitValue_hexDigit _ (by omega), hvalue,
    UInt8.ofNat_toNat]

theorem decode_encode {kept : UInt8 → Bool} (hkept : kept (ch '%') = false) (s : Bytes) :
    decode (encode kept s) = s := by
  induction s with
  | nil => rfl
  | cons c s ih =>
    cases h : kept c with
    | true => rw [encode_cons_kept h, decode_cons (ne_of_class h hkept), ih]
    | false => rw [encode_cons_escaped h, decode_escape, ih]

theorem encode_inj {kept : UInt8 → Bool} (hkept : kept (ch '%') = false) {s t : Bytes} :
    encode kept s = encode kept t ↔ s = t := by
  constructor
  · intro h
    rw [← decode_encode hkept s, h, decode_encode hkept t]
  · intro h
    rw [h]

end Percent
