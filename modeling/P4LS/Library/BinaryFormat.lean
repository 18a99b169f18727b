import Mathlib.Data.List.Infix
import P4LS.Library.Stream

/-!
# Binary formats

Values that are written one after another as they stand in memory: numbers of a fixed width, least
significant byte first, and vectors with their count in front.  A reader makes room for a vector as
soon as it has the count, which may be one of no file, and making room may throw.  `Reads` says that
a reader gives back what a writer wrote, leaves what comes behind it, accepts nothing else, and on
which bytes it throws.  So it refuses what is cut short.
-/

namespace BinaryFormat

open Istream

variable {ε μ α β : Type}

/-! ## Numbers -/

/-- The low `n` bytes of a number. -/
def leBytes : ℕ → ℕ → Bytes
  | 0, _ => []
  | n + 1, v => UInt8.ofNat (v % 256) :: leBytes n (v / 256)

def leValue : Bytes → ℕ
  | [] => 0
  | b :: bs => b.toNat + 256 * leValue bs

@[simp] theorem length_leBytes (n v : ℕ) : (leBytes n v).length = n := by
  induction n generalizing v with
  | zero => rfl
  | succ n ih => rw [leBytes, List.length_cons, ih]

theorem leValue_leBytes {n v : ℕ} (h : v < 256 ^ n) : leValue (leBytes n v) = v := by
  induction n generalizing v with
  | zero =>
    rw [Nat.pow_zero] at h
    rw [leBytes, leValue]
    omega
  | succ n ih =>
    rw [Nat.pow_succ] at h
    have hbyte : (UInt8.ofNat (v % 256)).toNat = v % 256 :=
      UInt8.toNat_ofNat_of_lt' (Nat.mod_lt v (by decide))
    rw [leBytes, leValue, hbyte, ih (by omega), Nat.mod_add_div]

theorem leValue_lt (bs : Bytes) : leValue bs < 256 ^ bs.length := by
  induction bs with
  | nil => exact Nat.one_pos
  | cons b bs ih =>
    have hb : b.toNat < 256 := b.toNat_lt
    rw [leValue, List.length_cons, Nat.pow_succ]
    omega

theorem leBytes_leValue (bs : Bytes) : leBytes bs.length (leValue bs) = bs := by
  induction bs with
  | nil => rfl
  | cons b bs ih =>
    have hb : b.toNat < 256 := b.toNat_lt
    have hmod : (b.toNat + 256 * leValue bs) % 256 = b.toNat := by omega
    have hdiv : (b.toNat + 256 * leValue bs) / 256 = leValue bs := by omega
    rw [List.length_cons, leValue, leBytes, hmod, hdiv, ih, UInt8.ofNat_toNat]

/-! ## Readers -/

/-- A number of `n` bytes; `none` when the stream is not good afterwards. -/
def readNumber (n : ℕ) (is : Istream) : Option (ℕ × Istream) :=
  let (bytes, is) := is.read n
  if is.good then some (leValue bytes, is) else none

/-- A value with the memory that is left and the stream behind it, `none` when the stream is not
good, or an exception. -/
abbrev Result (ε μ α : Type) := Except ε (Option (α × μ × Istream))

abbrev Reader (ε μ α : Type) := μ → Istream → Result ε μ α

/-- Go on behind a value. -/
def next (x : Result ε μ α) (f : α → Reader ε μ β) : Result ε μ β :=
  match x with
  | .error e => .error e
  | .ok none => .ok none
  | .ok (some (a, m, is)) => f a m is

def number (n : ℕ) : Reader ε μ ℕ := fun m is =>
  .ok ((readNumber n is).map fun p => (p.1, m, p.2))

/-- Some values, one after another. -/
def many (read : Reader ε μ α) : ℕ → Reader ε μ (List α)
  | 0, m, is => .ok (some ([], m, is))
  | n + 1, m, is =>
    next (read m is) fun a m is =>
      next (many read n m is) fun as m is => .ok (some (a :: as, m, is))

/-- A vector behind its count of `n` bytes, with room made for it before its elements are read. -/
def counted (n : ℕ) (reserve : μ → ℕ → Except ε μ) (read : Reader ε μ α) : Reader ε μ (List α) :=
  fun m is => next (number n m is) fun count m is =>
    match reserve m count with
    | .error e => .error e
    | .ok m => many read count m is

def pair (readFirst : Reader ε μ α) (readSecond : Reader ε μ β) : Reader ε μ (α × β) :=
  fun m is => next (readFirst m is) fun a m is =>
    next (readSecond m is) fun b m is => .ok (some ((a, b), m, is))

def mapped (f : α → β) (read : Reader ε μ α) : Reader ε μ β :=
  fun m is => next (read m is) fun a m is => .ok (some (f a, m, is))

theorem next_eq_some {x : Result ε μ α} {f : α → Reader ε μ β} {r : β × μ × Istream} :
    next x f = .ok (some r) ↔ ∃ a m is, x = .ok (some (a, m, is)) ∧ f a m is = .ok (some r) := by
  rcases x with e | _ | ⟨a, m, is⟩
  · exact iff_of_false nofun fun ⟨_, _, _, h, _⟩ => nomatch h
  · exact iff_of_false nofun fun ⟨_, _, _, h, _⟩ => nomatch h
  · constructor
    · intro h
      exact ⟨a, m, is, rfl, h⟩
    · intro h
      obtain ⟨_, _, _, h, hf⟩ := h
      cases h
      exact hf

theorem next_eq_error {x : Result ε μ α} {f : α → Reader ε μ β} {e : ε} :
    next x f = .error e ↔
      x = .error e ∨ ∃ a m is, x = .ok (some (a, m, is)) ∧ f a m is = .error e := by
  rcases x with e' | _ | ⟨a, m, is⟩
  · constructor
    · intro h
      cases h
      exact .inl rfl
    · intro h
      obtain h | ⟨_, _, _, h, _⟩ := h
      · cases h
        rfl
      · cases h
  · exact iff_of_false nofun fun h => by
      rcases h with h | ⟨_, _, _, h, _⟩ <;> cases h
  · constructor
    · intro h
      exact .inr ⟨a, m, is, rfl, h⟩
    · intro h
      obtain h | ⟨_, _, _, h, hf⟩ := h
      · cases h
      · cases h
        exact hf

/-! ## Formats -/

/-- The values of a format, how they are written, from what memory there is room for them and how
much of it is then left, and what is thrown when they are read from some bytes. -/
structure Format (ε μ α : Type) where
  valid : α → Prop
  write : α → Bytes
  room : μ → α → μ → Prop
  throws : μ → Bytes → ε → Prop

namespace Format

/-- A format without vectors. -/
def plain (ε μ : Type) (valid : α → Prop) (write : α → Bytes) : Format ε μ α where
  valid := valid
  write := write
  room m _ m' := m' = m
  throws _ _ _ := False

/-- There is room for some values, one after another. -/
def ManyRoom (F : Format ε μ α) : μ → List α → μ → Prop
  | m, [], m' => m' = m
  | m, a :: as, m' => ∃ between, F.room m a between ∧ F.ManyRoom between as m'

/-- Fewer than `n` values are read, and then there is a throw. -/
def ManyThrows (F : Format ε μ α) (n : ℕ) (m : μ) (s : Bytes) (e : ε) : Prop :=
  ∃ as between rest, as.length < n ∧ (∀ a ∈ as, F.valid a) ∧ F.ManyRoom m as between ∧
    s = as.flatMap F.write ++ rest ∧ F.throws between rest e

def many (F : Format ε μ α) (n : ℕ) : Format ε μ (List α) where
  valid as := as.length = n ∧ ∀ a ∈ as, F.valid a
  write as := as.flatMap F.write
  room := F.ManyRoom
  throws := F.ManyThrows n

/-- Either no room can be made for as many elements as the count says, or reading them throws. -/
def counted (n : ℕ) (reserve : μ → ℕ → Except ε μ) (F : Format ε μ α) : Format ε μ (List α) where
  valid as := as.length < 256 ^ n ∧ ∀ a ∈ as, F.valid a
  write as := leBytes n as.length ++ as.flatMap F.write
  room m as m' := ∃ reserved, reserve m as.length = .ok reserved ∧ F.ManyRoom reserved as m'
  throws m s e := ∃ count rest, count < 256 ^ n ∧ s = leBytes n count ++ rest ∧
    (reserve m count = .error e ∨
      ∃ reserved, reserve m count = .ok reserved ∧ F.ManyThrows count reserved rest e)

def pair (F : Format ε μ α) (G : Format ε μ β) : Format ε μ (α × β) where
  valid p := F.valid p.1 ∧ G.valid p.2
  write p := F.write p.1 ++ G.write p.2
  room m p m' := ∃ between, F.room m p.1 between ∧ G.room between p.2 m'
  throws m s e := F.throws m s e ∨ ∃ a between rest, F.valid a ∧ F.room m a between ∧
    s = F.write a ++ rest ∧ G.throws between rest e

/-- Values that are written as values of another type. -/
def mapped (F : Format ε μ α) (g : β → α) (valid : β → Prop) : Format ε μ β where
  valid := valid
  write b := F.write (g b)
  room m b m' := F.room m (g b) m'
  throws := F.throws

end Format

/-- The reader takes what is written of the values of the format, as long as there is room, and
nothing else, and throws what the format says. -/
structure Reads (F : Format ε μ α) (read : Reader ε μ α) : Prop where
  complete {a : α} {m m' : μ} : F.valid a → F.room m a m' →
    ∀ rest, read m (ofBytes (F.write a ++ rest)) = .ok (some (a, m', ofBytes rest))
  sound {s : Bytes} {a : α} {m m' : μ} {is : Istream} :
    read m (ofBytes s) = .ok (some (a, m', is)) →
      F.valid a ∧ F.room m a m' ∧ ∃ rest, s = F.write a ++ rest ∧ is = ofBytes rest
  error_iff {s : Bytes} {m : μ} {e : ε} : read m (ofBytes s) = .error e ↔ F.throws m s e
  throws_append {s : Bytes} {m : μ} {e : ε} : F.throws m s e → ∀ t, F.throws m (s ++ t) e

namespace Reads

variable {F : Format ε μ α} {read : Reader ε μ α}

/-- What is cut short is refused, if there is room for the whole. -/
theorem truncated (h : Reads F read) {a : α} (ha : F.valid a) {m m' : μ} (hroom : F.room m a m')
    {s : Bytes} (hs : s <+: F.write a) (hne : s ≠ F.write a) : read m (ofBytes s) = .ok none := by
  obtain ⟨cut, hcut⟩ := hs
  have hall := h.complete ha hroom []
  rw [List.append_nil] at hall
  rcases hread : read m (ofBytes s) with e | _ | ⟨b, m'', is⟩
  · have hthrows := h.throws_append (h.error_iff.mp hread) cut
    rw [hcut, ← h.error_iff, hall] at hthrows
    cases hthrows
  · rfl
  · obtain ⟨hb, hroom', rest, rfl, _⟩ := h.sound hread
    have hboth : read m (ofBytes (F.write a)) = .ok (some (b, m'', ofBytes (rest ++ cut))) := by
      rw [← hcut, List.append_assoc]
      exact h.complete hb hroom' (rest ++ cut)
    rw [hall] at hboth
    have hrest : [] = rest ++ cut :=
      congrArg (fun p => p.2.2.rest) (Option.some.inj (Except.ok.inj hboth))
    rw [(List.append_eq_nil_iff.mp hrest.symm).2, List.append_nil] at hcut
    exact absurd hcut hne

theorem number (n : ℕ) :
    Reads (Format.plain ε μ (· < 256 ^ n) (leBytes n)) (BinaryFormat.number n) where
  complete {v m m'} hv hroom rest := by
    obtain rfl : m' = m := hroom
    have hread := @read_append (leBytes n v) rest
    rw [length_leBytes] at hread
    change BinaryFormat.number n m' (ofBytes (leBytes n v ++ rest)) = _
    rw [BinaryFormat.number, readNumber, hread]
    simp only [good_ofBytes, if_true, leValue_leBytes hv, Option.map_some]
  sound {s v m m' is} h := by
    rw [BinaryFormat.number, readNumber, Istream.read, good_ofBytes, if_pos rfl,
      rest_ofBytes] at h
    by_cases hshort : s.length < n
    · rw [if_pos hshort] at h
      cases h
    · rw [if_neg hshort] at h
      cases h
      have hlength : (s.take n).length = n := by
        rw [List.length_take, Nat.min_eq_left (Nat.le_of_not_lt hshort)]
      have hlt := leValue_lt (s.take n)
      have hbytes := leBytes_leValue (s.take n)
      rw [hlength] at hlt hbytes
      refine ⟨hlt, rfl, s.drop n, ?_, rfl⟩
      change s = leBytes n (leValue (s.take n)) ++ s.drop n
      rw [hbytes, List.take_append_drop]
  error_iff := iff_of_false nofun id
  throws_append := False.elim

theorem many (h : Reads F read) (n : ℕ) : Reads (F.many n) (BinaryFormat.many read n) where
  complete {as m m'} has hroom rest := by
    obtain ⟨rfl, hvalid⟩ := has
    induction as generalizing m with
    | nil =>
      obtain rfl : m' = m := hroom
      rfl
    | cons a as ih =>
      obtain ⟨ha, has⟩ := List.forall_mem_cons.mp hvalid
      obtain ⟨between, hfirst, hmore⟩ := hroom
      refine next_eq_some.mpr ⟨a, between, ofBytes (as.flatMap F.write ++ rest), ?_,
        next_eq_some.mpr ⟨as, m', ofBytes rest, ih has hmore, rfl⟩⟩
      rw [← h.complete ha hfirst, ← List.append_assoc]
      rfl
  sound {s as m m' is} hread := by
    induction n generalizing s as m with
    | zero =>
      cases hread
      exact ⟨⟨rfl, fun a ha => absurd ha List.not_mem_nil⟩, rfl, s, rfl, rfl⟩
    | succ n ih =>
      obtain ⟨a, between, is', hfirst, hread⟩ := next_eq_some.mp hread
      obtain ⟨as', m'', is'', hmore, hread⟩ := next_eq_some.mp hread
      cases hread
      obtain ⟨ha, hroom, rest, rfl, rfl⟩ := h.sound hfirst
      obtain ⟨⟨hlength, has⟩, hrooms, rest', rfl, rfl⟩ := ih hmore
      refine ⟨⟨congrArg (· + 1) hlength, List.forall_mem_cons.mpr ⟨ha, has⟩⟩,
        ⟨between, hroom, hrooms⟩, rest', ?_, rfl⟩
      exact (List.append_assoc _ _ _).symm
  error_iff {s m e} := by
    induction n generalizing s m with
    | zero =>
      exact iff_of_false nofun fun ⟨as, _, _, hlength, _⟩ => Nat.not_lt_zero _ hlength
    | succ n ih =>
      refine next_eq_error.trans ?_
      constructor
      · intro h
        obtain hfirst | ⟨a, between, is, hfirst, hread⟩ := h
        · exact ⟨[], m, s, Nat.succ_pos n, fun _ ha => absurd ha List.not_mem_nil, rfl, rfl,
            h.error_iff.mp hfirst⟩
        · obtain ⟨ha, hroom, rest, rfl, rfl⟩ := h.sound hfirst
          rcases next_eq_error.mp hread with hmore | ⟨_, _, _, _, hread⟩
          · obtain ⟨as, between', rest', hlength, has, hrooms, rfl, hthrows⟩ := ih.mp hmore
            refine ⟨a :: as, between', rest', Nat.succ_lt_succ hlength,
              List.forall_mem_cons.mpr ⟨ha, has⟩, ⟨between, hroom, hrooms⟩, ?_, hthrows⟩
            exact (List.append_assoc _ _ _).symm
          · cases hread
      · intro h
        obtain ⟨as, between, rest, hlength, has, hrooms, rfl, hthrows⟩ := h
        cases as with
        | nil =>
          obtain rfl : between = m := hrooms
          exact .inl (h.error_iff.mpr hthrows)
        | cons a as =>
          obtain ⟨ha, has⟩ := List.forall_mem_cons.mp has
          obtain ⟨between', hroom, hrooms⟩ := hrooms
          have hmore := ih.mpr ⟨as, between, rest, Nat.lt_of_succ_lt_succ hlength, has, hrooms, rfl,
            hthrows⟩
          rw [List.flatMap_cons, List.append_assoc]
          exact .inr ⟨a, between', _, h.complete ha hroom _, next_eq_error.mpr (.inl hmore)⟩
  throws_append {s m e} := by
    intro h t
    obtain ⟨as, between, rest, hlength, has, hrooms, rfl, hthrows⟩ := h
    exact ⟨as, between, rest ++ t, hlength, has, hrooms, List.append_assoc _ _ _,
      h.throws_append hthrows t⟩

theorem counted (h : Reads F read) (n : ℕ) (reserve : μ → ℕ → Except ε μ) :
    Reads (F.counted n reserve) (BinaryFormat.counted n reserve read) where
  complete {as m m'} has hroom rest := by
    obtain ⟨reserved, hreserve, hroom⟩ := hroom
    refine next_eq_some.mpr ⟨as.length, m, ofBytes (as.flatMap F.write ++ rest), ?_, ?_⟩
    · rw [← (number n).complete has.1 rfl, ← List.append_assoc]
      rfl
    · rw [hreserve]
      exact (h.many as.length).complete ⟨rfl, has.2⟩ hroom rest
  sound {s as m m' is} hread := by
    obtain ⟨count, m₁, is', hcount, hmany⟩ := next_eq_some.mp hread
    obtain ⟨hlt, hm, rest, rfl, rfl⟩ := (number n).sound hcount
    obtain rfl : m₁ = m := hm
    cases hreserve : reserve m₁ count with
    | error e =>
      rw [hreserve] at hmany
      cases hmany
    | ok reserved =>
      rw [hreserve] at hmany
      obtain ⟨⟨rfl, hvalid⟩, hrooms, rest', rfl, rfl⟩ := (h.many count).sound hmany
      exact ⟨⟨hlt, hvalid⟩, ⟨reserved, hreserve, hrooms⟩, rest', (List.append_assoc _ _ _).symm,
        rfl⟩
  error_iff {s m e} := by
    refine next_eq_error.trans ?_
    constructor
    · intro h
      obtain hcount | ⟨count, m₁, is, hcount, hread⟩ := h
      · cases hcount
      · obtain ⟨hlt, hm, rest, rfl, rfl⟩ := (number n).sound hcount
        obtain rfl : m₁ = m := hm
        refine ⟨count, rest, hlt, rfl, ?_⟩
        cases hreserve : reserve m₁ count with
        | error e' =>
          rw [hreserve] at hread
          cases hread
          exact .inl rfl
        | ok reserved =>
          rw [hreserve] at hread
          exact .inr ⟨reserved, rfl, (h.many count).error_iff.mp hread⟩
    · intro h
      obtain ⟨count, rest, hlt, rfl, hthrows⟩ := h
      refine .inr ⟨count, m, ofBytes rest, (number n).complete hlt rfl rest, ?_⟩
      rcases hthrows with hreserve | ⟨reserved, hreserve, hthrows⟩
      · rw [hreserve]
      · rw [hreserve]
        exact (h.many count).error_iff.mpr hthrows
  throws_append {s m e} := by
    intro h t
    obtain ⟨count, rest, hlt, rfl, hthrows⟩ := h
    refine ⟨count, rest ++ t, hlt, List.append_assoc _ _ _, hthrows.imp_right ?_⟩
    intro h
    obtain ⟨reserved, hreserve, hthrows⟩ := h
    exact ⟨reserved, hreserve, (h.many count).throws_append hthrows t⟩

theorem pair {G : Format ε μ β} {read' : Reader ε μ β} (h : Reads F read) (h' : Reads G read') :
    Reads (F.pair G) (BinaryFormat.pair read read') where
  complete {p m m'} hp hroom rest := by
    obtain ⟨between, hfirst, hsecond⟩ := hroom
    refine next_eq_some.mpr ⟨p.1, between, ofBytes (G.write p.2 ++ rest), ?_,
      next_eq_some.mpr ⟨p.2, m', ofBytes rest, h'.complete hp.2 hsecond rest, rfl⟩⟩
    rw [← h.complete hp.1 hfirst, ← List.append_assoc]
    rfl
  sound {s p m m' is} hread := by
    obtain ⟨a, between, is', hfirst, hread⟩ := next_eq_some.mp hread
    obtain ⟨b, m'', is'', hsecond, hread⟩ := next_eq_some.mp hread
    cases hread
    obtain ⟨ha, hroom, rest, rfl, rfl⟩ := h.sound hfirst
    obtain ⟨hb, hroom', rest', rfl, rfl⟩ := h'.sound hsecond
    exact ⟨⟨ha, hb⟩, ⟨between, hroom, hroom'⟩, rest', (List.append_assoc _ _ _).symm, rfl⟩
  error_iff {s m e} := by
    refine next_eq_error.trans (or_congr h.error_iff ?_)
    constructor
    · intro h
      obtain ⟨a, between, is, hfirst, hread⟩ := h
      obtain ⟨ha, hroom, rest, rfl, rfl⟩ := h.sound hfirst
      rcases next_eq_error.mp hread with hsecond | ⟨_, _, _, _, hread⟩
      · exact ⟨a, between, rest, ha, hroom, rfl, h'.error_iff.mp hsecond⟩
      · cases hread
    · intro h
      obtain ⟨a, between, rest, ha, hroom, rfl, hthrows⟩ := h
      exact ⟨a, between, _, h.complete ha hroom rest,
        next_eq_error.mpr (.inl (h'.error_iff.mpr hthrows))⟩
  throws_append {s m e} := by
    intro h t
    obtain hthrows | ⟨a, between, rest, ha, hroom, rfl, hthrows⟩ := h
    · exact .inl (h.throws_append hthrows t)
    · exact .inr ⟨a, between, rest ++ t, ha, hroom, List.append_assoc _ _ _,
        h'.throws_append hthrows t⟩

/-- Values that are written as values of another type. -/
theorem mapped (h : Reads F read) {valid : β → Prop} (f : α → β) (g : β → α)
    (hto : ∀ b, valid b → F.valid (g b) ∧ f (g b) = b)
    (hfrom : ∀ a, F.valid a → valid (f a) ∧ g (f a) = a) :
    Reads (F.mapped g valid) (BinaryFormat.mapped f read) where
  complete {b m m'} hb hroom rest := by
    refine next_eq_some.mpr ⟨g b, m', ofBytes rest, h.complete (hto b hb).1 hroom rest, ?_⟩
    rw [(hto b hb).2]
  sound {s b m m' is} hread := by
    obtain ⟨a, m'', is', hvalue, hread⟩ := next_eq_some.mp hread
    cases hread
    obtain ⟨ha, hroom, rest, rfl, rfl⟩ := h.sound hvalue
    obtain ⟨hvalid, hback⟩ := hfrom a ha
    refine ⟨hvalid, ?_, rest, ?_, rfl⟩
    · change F.room m (g (f a)) m'
      rwa [hback]
    · change _ = F.write (g (f a)) ++ rest
      rw [hback]
  error_iff {s m e} := by
    refine next_eq_error.trans ((or_iff_left ?_).trans h.error_iff)
    intro h
    obtain ⟨_, _, _, _, hread⟩ := h
    cases hread
  throws_append := h.throws_append

end Reads

end BinaryFormat
