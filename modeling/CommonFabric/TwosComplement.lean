import Mathlib.Algebra.Order.Ring.Int
import Mathlib.Data.Int.Bitwise
import Mathlib.Tactic.Linarith
import Mathlib.Tactic.LinearCombination
import Mathlib.Tactic.Ring

/-!
# Two's complement in bytes

Bytes, the most significant first, stand for an integer whose sign is the high bit of the first.
The bytes of a value are unique once they leave out what only repeats the sign, and no shorter
bytes have the value.
-/

namespace TwosComplement

/-- The value of bytes without a sign. -/
def unsigned : List UInt8 → Nat
  | [] => 0
  | a :: rest => a.toNat * 256 ^ rest.length + unsigned rest

/-- The value of bytes after what has the value `high`. -/
def after (high : Int) (bytes : List UInt8) : Int := high * 256 ^ bytes.length + unsigned bytes

/-- What the sign of some bytes is worth above them. -/
def signOf (bytes : List UInt8) : Int := if 0x80 ≤ bytes.headD 0 then -1 else 0

def signed (bytes : List UInt8) : Int := after (signOf bytes) bytes

/-- A number as a byte holds it. -/
def byteOf (n : Int) : UInt8 := UInt8.ofNat (n % 256).toNat

/-- The low `n` bytes of a number. -/
def bytesOf : Nat → Int → List UInt8
  | 0, _ => []
  | n + 1, v => bytesOf n (v / 256) ++ [byteOf v]

/-- No byte at the front only repeats the sign. -/
def Minimal : List UInt8 → Prop
  | [] => False
  | [_] => True
  | a :: b :: _ => ¬(a = 0 ∧ b < 0x80) ∧ ¬(a = 0xff ∧ 0x80 ≤ b)

theorem toNat_lt (a : UInt8) : a.toNat < 256 := UInt8.toNat_lt a

theorem unsigned_lt (bytes : List UInt8) : unsigned bytes < 256 ^ bytes.length := by
  induction bytes with
  | nil => exact Nat.one_pos
  | cons a rest ih =>
    have ha := toNat_lt a
    rw [unsigned, List.length_cons, Nat.pow_succ]
    calc a.toNat * 256 ^ rest.length + unsigned rest
        < a.toNat * 256 ^ rest.length + 256 ^ rest.length := by omega
      _ = (a.toNat + 1) * 256 ^ rest.length := (Nat.succ_mul _ _).symm
      _ ≤ 256 * 256 ^ rest.length := Nat.mul_le_mul_right _ ha
      _ = 256 ^ rest.length * 256 := Nat.mul_comm _ _

theorem unsigned_append (xs ys : List UInt8) :
    unsigned (xs ++ ys) = unsigned xs * 256 ^ ys.length + unsigned ys := by
  induction xs with
  | nil => simp [unsigned]
  | cons a xs ih =>
    rw [List.cons_append, unsigned, ih, unsigned, List.length_append, Nat.pow_add]
    ring

/-- Bytes after bytes. -/
theorem after_append (high : Int) (xs ys : List UInt8) :
    after high (xs ++ ys) = after (after high xs) ys := by
  rw [after, after, after, unsigned_append, List.length_append]
  push_cast
  ring

@[simp] theorem after_nil (high : Int) : after high [] = high := by simp [after, unsigned]

theorem after_cons (high : Int) (a : UInt8) (rest : List UInt8) :
    after high (a :: rest) = after (high * 256 + a.toNat) rest := by
  rw [after, after, unsigned, List.length_cons]
  push_cast
  ring

/-- A first byte that repeats the sign adds nothing. -/
theorem signed_cons_sign {a b : UInt8} {rest : List UInt8}
    (h : (a = 0 ∧ b < 0x80) ∨ (a = 0xff ∧ 0x80 ≤ b)) : signed (a :: b :: rest) = signed (b :: rest) := by
  rw [signed, signed, signOf, signOf, after_cons, List.headD_cons, List.headD_cons]
  rcases h with ⟨rfl, hb⟩ | ⟨rfl, hb⟩
  · rw [if_neg (show ¬(0x80 : UInt8) ≤ 0 by decide), if_neg (UInt8.not_le.2 hb)]
    rfl
  · rw [if_pos (show (0x80 : UInt8) ≤ 0xff by decide), if_pos hb]
    rfl

variable {xs bytes : List UInt8}

theorem signOf_append (h : xs ≠ []) (ys : List UInt8) :
    signOf (xs ++ ys) = signOf xs := by
  cases xs with
  | nil => exact absurd rfl h
  | cons a xs => rfl

theorem signed_append (h : xs ≠ []) (ys : List UInt8) :
    signed (xs ++ ys) = after (signed xs) ys := by
  rw [signed, signOf_append h, after_append, signed]

/-- The bytes at the end fall off with the division by their weight. -/
theorem after_ediv (high : Int) (bytes : List UInt8) :
    after high bytes / 256 ^ bytes.length = high := by
  have hlt : (unsigned bytes : Int) < 256 ^ bytes.length := by exact_mod_cast unsigned_lt bytes
  have hpos : (256 : Int) ^ bytes.length ≠ 0 := by positivity
  rw [after, Int.add_comm, Int.add_mul_ediv_right _ _ hpos,
    Int.ediv_eq_zero_of_lt (Int.natCast_nonneg _) hlt, Int.zero_add]

/-- Bytes below the high bit have no sign. -/
theorem signed_of_lt (h : bytes.headD 0 < 0x80) : signed bytes = unsigned bytes := by
  rw [signed, signOf, if_neg (UInt8.not_le.2 h), after, Int.zero_mul, Int.zero_add]

/-- A number that `n` bytes can hold. -/
def Fits (n : Nat) (v : Int) : Prop := -(128 * 256 ^ (n - 1)) ≤ v ∧ v < 128 * 256 ^ (n - 1)

theorem fits_signed (a : UInt8) (rest : List UInt8) :
    Fits (a :: rest).length (signed (a :: rest)) := by
  have hrest : (unsigned rest : Int) < 256 ^ rest.length := by exact_mod_cast unsigned_lt rest
  have hpos : (0 : Int) ≤ unsigned rest := Int.natCast_nonneg _
  have ha := toNat_lt a
  rw [Fits, signed, signOf, after_cons, after, List.length_cons, Nat.add_sub_cancel, List.headD_cons]
  generalize (256 : Int) ^ rest.length = p at hrest
  have hp : 0 < p := by omega
  split
  case isTrue h =>
    have h : 128 ≤ a.toNat := UInt8.le_iff_toNat_le.1 h
    have hlow := Int.mul_nonneg (show (0 : Int) ≤ a.toNat - 128 by omega) hp.le
    have hhigh := Int.mul_nonneg (show (0 : Int) ≤ 255 - a.toNat by omega) hp.le
    constructor <;> linarith
  case isFalse h =>
    have h : a.toNat < 128 := UInt8.lt_iff_toNat_lt.1 (UInt8.not_le.1 h)
    have hlow := Int.mul_nonneg (Int.natCast_nonneg a.toNat) hp.le
    have hhigh := Int.mul_nonneg (show (0 : Int) ≤ 127 - a.toNat by omega) hp.le
    constructor <;> linarith

/-- The high bit of the first byte tells a number below zero. -/
theorem signed_neg_iff (a : UInt8) (rest : List UInt8) : signed (a :: rest) < 0 ↔ 0x80 ≤ a := by
  have hlt : (unsigned (a :: rest) : Int) < 256 ^ (a :: rest).length := by
    exact_mod_cast unsigned_lt (a :: rest)
  rw [signed, signOf, after, List.headD_cons]
  by_cases h : 0x80 ≤ a
  · rw [if_pos h]
    exact iff_of_true (by omega) h
  · rw [if_neg h]
    exact iff_of_false (by omega) h

/-- What minimal bytes hold does not fit in fewer. -/
theorem not_fits_of_minimal {a b : UInt8} {rest : List UInt8} (h : Minimal (a :: b :: rest)) :
    ¬Fits (b :: rest).length (signed (a :: b :: rest)) := by
  have hrest : (unsigned rest : Int) < 256 ^ rest.length := by exact_mod_cast unsigned_lt rest
  have hpos : (0 : Int) ≤ unsigned rest := Int.natCast_nonneg _
  have ha := toNat_lt a
  have hb := toNat_lt b
  rw [Minimal] at h
  obtain ⟨hzero, hones⟩ := h
  rw [UInt8.lt_iff_toNat_lt, ← UInt8.toNat_inj] at hzero
  rw [UInt8.le_iff_toNat_le, ← UInt8.toNat_inj] at hones
  change ¬(a.toNat = 0 ∧ b.toNat < 128) at hzero
  change ¬(a.toNat = 255 ∧ 128 ≤ b.toNat) at hones
  rw [Fits, signed, signOf, after_cons, after_cons, after, List.length_cons, Nat.add_sub_cancel,
    List.headD_cons]
  generalize (256 : Int) ^ rest.length = p at hrest
  have hp : 0 < p := by omega
  split
  case isTrue h =>
    have h : 128 ≤ a.toNat := UInt8.le_iff_toNat_le.1 h
    have hlow := Int.mul_nonneg
      (show (0 : Int) ≤ -129 - ((-1 * 256 + a.toNat) * 256 + b.toNat) by omega) hp.le
    rintro ⟨hfits, -⟩
    linarith
  case isFalse h =>
    have h : a.toNat < 128 := UInt8.lt_iff_toNat_lt.1 (UInt8.not_le.1 h)
    have hhigh := Int.mul_nonneg
      (show (0 : Int) ≤ (0 * 256 + a.toNat) * 256 + b.toNat - 128 by omega) hp.le
    rintro ⟨-, hfits⟩
    linarith

/-- Bytes whose number does not fit in fewer are minimal. -/
theorem minimal_of_not_fits {a : UInt8} {rest : List UInt8}
    (h : rest = [] ∨ ¬Fits rest.length (signed (a :: rest))) : Minimal (a :: rest) := by
  cases rest with
  | nil => exact trivial
  | cons b rest =>
    rcases h with h | h
    · cases h
    · constructor
      · intro hsign
        exact h (signed_cons_sign (Or.inl hsign) ▸ fits_signed b rest)
      · intro hsign
        exact h (signed_cons_sign (Or.inr hsign) ▸ fits_signed b rest)

theorem fits_mono {m n : Nat} (h : m ≤ n) {v : Int} (hv : Fits m v) : Fits n v := by
  have hpow : (256 : Int) ^ (m - 1) ≤ 256 ^ (n - 1) :=
    pow_le_pow_right₀ (by decide) (Nat.sub_le_sub_right h 1)
  rw [Fits] at hv ⊢
  constructor <;> omega

/-- No bytes of the value are fewer. -/
theorem length_le_of_minimal {ys : List UInt8} (h : Minimal xs) (hys : ys ≠ [])
    (hvalue : signed ys = signed xs) : xs.length ≤ ys.length := by
  cases ys with
  | nil => exact absurd rfl hys
  | cons c ys =>
    cases xs with
    | nil => exact absurd h id
    | cons a xs =>
      cases xs with
      | nil => exact Nat.succ_le_succ (Nat.zero_le _)
      | cons b xs =>
        by_contra hlt
        have hfits := fits_signed c ys
        rw [hvalue] at hfits
        refine not_fits_of_minimal h (fits_mono ?_ hfits)
        simp only [List.length_cons] at hlt ⊢
        omega

theorem unsigned_inj {ys : List UInt8} (hlength : xs.length = ys.length)
    (h : unsigned xs = unsigned ys) : xs = ys := by
  induction xs generalizing ys with
  | nil => exact (List.length_eq_zero_iff.1 hlength.symm).symm
  | cons a xs ih =>
    cases ys with
    | nil => cases hlength
    | cons b ys =>
      have hlength : xs.length = ys.length := Nat.succ.inj hlength
      have hx := unsigned_lt xs
      have hy := unsigned_lt ys
      rw [unsigned, unsigned, hlength] at h
      rw [hlength] at hx
      have hab : a.toNat = b.toNat := by
        have hdiv := congrArg (· / 256 ^ ys.length) h
        simp only [Nat.mul_comm _ (256 ^ ys.length)] at hdiv
        rw [Nat.mul_add_div (Nat.pow_pos (by decide)), Nat.mul_add_div (Nat.pow_pos (by decide)),
          Nat.div_eq_of_lt hx, Nat.div_eq_of_lt hy] at hdiv
        exact hdiv
      rw [UInt8.toNat_inj.1 hab, ih hlength (by rw [hab] at h; omega)]

/-- Bytes of one length that hold one value are the same. -/
theorem signed_inj {ys : List UInt8} (hlength : xs.length = ys.length)
    (h : signed xs = signed ys) : xs = ys := by
  have hx : (unsigned xs : Int) < 256 ^ ys.length := by
    rw [← hlength]
    exact_mod_cast unsigned_lt xs
  have hy : (unsigned ys : Int) < 256 ^ ys.length := by exact_mod_cast unsigned_lt ys
  have hx0 : (0 : Int) ≤ unsigned xs := Int.natCast_nonneg _
  have hy0 : (0 : Int) ≤ unsigned ys := Int.natCast_nonneg _
  apply unsigned_inj hlength
  rw [signed, signed, after, after, hlength, signOf, signOf] at h
  generalize (256 : Int) ^ ys.length = p at *
  split at h <;> split at h <;> omega

/-- Bytes of the value such that no others are fewer, and none as few. -/
def Shortest (v : Int) (bytes : List UInt8) : Prop :=
  bytes ≠ [] ∧ signed bytes = v ∧ ∀ others, others ≠ [] → signed others = v →
    bytes.length ≤ others.length ∧ (others.length = bytes.length → others = bytes)

theorem shortest_of_minimal (h : Minimal bytes) :
    Shortest (signed bytes) bytes := by
  refine ⟨?_, rfl, ?_⟩
  · rintro rfl
    exact h
  · intro others hne hvalue
    exact ⟨length_le_of_minimal h hne hvalue, fun hlength => signed_inj hlength hvalue⟩

theorem toNat_byteOf (n : Int) : ((byteOf n).toNat : Int) = n % 256 := by
  have hpos := Int.emod_nonneg n (show (256 : Int) ≠ 0 by decide)
  have hlt := Int.emod_lt_of_pos n (show (0 : Int) < 256 by decide)
  rw [byteOf, UInt8.toNat_ofNat']
  omega

@[simp] theorem length_bytesOf (n : Nat) (v : Int) : (bytesOf n v).length = n := by
  induction n generalizing v with
  | zero => rfl
  | succ n ih => rw [bytesOf, List.length_append, ih, List.length_singleton]

theorem unsigned_bytesOf (n : Nat) (v : Int) : (unsigned (bytesOf n v) : Int) = v % 256 ^ n := by
  induction n generalizing v with
  | zero => simp [bytesOf, unsigned]
  | succ n ih =>
    have hbyte := toNat_byteOf v
    rw [bytesOf, unsigned_append]
    push_cast
    rw [ih]
    simp only [unsigned, List.length_nil, List.length_singleton, pow_zero, pow_one, Nat.mul_one,
      Nat.add_zero]
    rw [hbyte, pow_succ, Int.mul_comm (256 ^ n) 256]
    -- the number is its quotient's remainder and quotient, and its own remainder
    have hn : (0 : Int) < 256 ^ n := by positivity
    have hquotient := Int.emod_add_mul_ediv (v / 256) (256 ^ n)
    have hself := Int.emod_add_mul_ediv v 256
    have hlow := Int.emod_nonneg (v / 256) hn.ne'
    have hhigh := Int.emod_lt_of_pos (v / 256) hn
    have hbytes := Int.emod_nonneg v (show (256 : Int) ≠ 0 by decide)
    have hbytes' := Int.emod_lt_of_pos v (show (0 : Int) < 256 by decide)
    have hsplit : v = (v / 256 % 256 ^ n * 256 + v % 256) + 256 * 256 ^ n * (v / 256 / 256 ^ n) := by
      linear_combination -hself - 256 * hquotient
    conv_rhs => rw [hsplit, Int.add_mul_emod_self_left]
    exact (Int.emod_eq_of_lt (by omega) (by omega)).symm

/-- The low bytes of a number that they can hold are its own. -/
theorem signed_bytesOf {n : Nat} {v : Int} (h : Fits (n + 1) v) : signed (bytesOf (n + 1) v) = v := by
  have hvalue := unsigned_bytesOf (n + 1) v
  have hlength := length_bytesOf (n + 1) v
  cases hbytes : bytesOf (n + 1) v with
  | nil => rw [hbytes] at hlength; cases hlength
  | cons a rest =>
    have hfits := fits_signed a rest
    rw [hbytes] at hvalue hlength
    rw [hlength] at hfits
    have hmod : (signed (a :: rest) - v) % 256 ^ (n + 1) = 0 := by
      rw [signed, after, hlength, hvalue, Int.sub_emod, Int.add_emod, Int.mul_emod_left,
        Int.zero_add, Int.emod_emod_of_dvd _ (dvd_refl _), Int.emod_emod_of_dvd _ (dvd_refl _),
        Int.sub_self, Int.zero_emod]
    rw [Fits, Nat.add_sub_cancel] at h hfits
    obtain ⟨k, hk⟩ := Int.dvd_of_emod_eq_zero hmod
    rw [pow_succ] at hk
    generalize (256 : Int) ^ n = p at *
    have hk0 : k = 0 := by
      by_contra hne
      have hp : 0 < p := by omega
      rcases Int.lt_or_gt_of_ne hne with hneg | hpos
      · have := Int.mul_nonneg (show (0 : Int) ≤ -1 - k by omega) hp.le
        linarith
      · have := Int.mul_nonneg (show (0 : Int) ≤ k - 1 by omega) hp.le
        linarith
    rw [hk0] at hk
    omega

/-- Bytes that are as many as the number needs are minimal. -/
theorem minimal_bytesOf {n : Nat} {v : Int} (h : Fits (n + 1) v) (hn : n = 0 ∨ ¬Fits n v) :
    Minimal (bytesOf (n + 1) v) := by
  have hvalue := signed_bytesOf h
  have hlength := length_bytesOf (n + 1) v
  cases hbytes : bytesOf (n + 1) v with
  | nil => rw [hbytes] at hlength; cases hlength
  | cons a rest =>
    rw [hbytes] at hvalue hlength
    have hrest : rest.length = n := Nat.succ.inj hlength
    apply minimal_of_not_fits
    rw [hvalue, hrest, ← List.length_eq_zero_iff, hrest]
    exact hn

theorem toNat_not (a : UInt8) : (~~~a).toNat = 255 - a.toNat := by
  rw [UInt8.toNat_not]
  rfl

theorem unsigned_complement (bytes : List UInt8) :
    unsigned (bytes.map (~~~·)) + unsigned bytes + 1 = 256 ^ bytes.length := by
  induction bytes with
  | nil => rfl
  | cons a rest ih =>
    have ha := toNat_lt a
    rw [List.map_cons, unsigned, unsigned, List.length_map, List.length_cons, pow_succ, toNat_not]
    have hsum : (255 - a.toNat) * 256 ^ rest.length + a.toNat * 256 ^ rest.length =
        255 * 256 ^ rest.length := by
      rw [← Nat.add_mul]
      congr 1
      omega
    omega

/-- The complement of what follows a number is the complement after the number's. -/
theorem after_complement (high : Int) (bytes : List UInt8) :
    after (-high - 1) (bytes.map (~~~·)) = -after high bytes - 1 := by
  have hsum : (unsigned (bytes.map (~~~·)) : Int) + unsigned bytes + 1 = 256 ^ bytes.length := by
    exact_mod_cast unsigned_complement bytes
  rw [after, after, List.length_map]
  linear_combination hsum

theorem not_high (a : UInt8) : 0x80 ≤ ~~~a ↔ a < 0x80 := by
  have ha := toNat_lt a
  rw [UInt8.le_iff_toNat_le, UInt8.lt_iff_toNat_lt, toNat_not]
  change 128 ≤ 255 - a.toNat ↔ a.toNat < 128
  omega

theorem signed_complement (h : bytes ≠ []) :
    signed (bytes.map (~~~·)) = -signed bytes - 1 := by
  cases bytes with
  | nil => exact absurd rfl h
  | cons a rest =>
    have hsign : signOf ((a :: rest).map (~~~·)) = -signOf (a :: rest) - 1 := by
      rw [signOf, signOf, List.map_cons, List.headD_cons, List.headD_cons]
      by_cases ha : a < 0x80
      · rw [if_pos ((not_high a).2 ha), if_neg (UInt8.not_le.2 ha)]
        rfl
      · rw [if_neg (fun h => ha ((not_high a).1 h)), if_pos (UInt8.not_lt.1 ha)]
        rfl
    rw [signed, hsign, after_complement, signed]

theorem minimal_complement (h : Minimal bytes) :
    Minimal (bytes.map (~~~·)) := by
  cases bytes with
  | nil => exact h
  | cons a rest =>
    cases rest with
    | nil => exact trivial
    | cons b rest =>
      have ha : ∀ c : UInt8, ~~~a = c → a = ~~~c := by
        rintro c rfl
        exact (UInt8.not_not).symm
      constructor
      · rintro ⟨hzero, hb⟩
        exact h.2 ⟨ha _ hzero, UInt8.not_lt.1 fun h => UInt8.not_le.2 hb ((not_high b).2 h)⟩
      · rintro ⟨hones, hb⟩
        exact h.1 ⟨ha _ hones, (not_high b).1 hb⟩

/-- A shifted number leaves room for the bits of a smaller one. -/
theorem lor_shifted (a : Int) {k b : Nat} (hb : b < 2 ^ k) : Int.lor (a * 2 ^ k) b = a * 2 ^ k + b := by
  cases a with
  | ofNat m =>
    have hnat : (m * 2 ^ k ||| b) = m * 2 ^ k + b := by
      rw [Nat.mul_comm, Nat.two_pow_add_eq_or_of_lt hb]
    have hshift : Int.ofNat m * 2 ^ k = ((m * 2 ^ k : Nat) : Int) := by push_cast; rfl
    rw [hshift]
    show ((m * 2 ^ k ||| b : Nat) : Int) = _
    rw [hnat]
    push_cast
    rfl
  | negSucc m =>
    have hpos : 0 < 2 ^ k := Nat.two_pow_pos k
    have hshift : Int.negSucc m * 2 ^ k = Int.negSucc (2 ^ k * m + (2 ^ k - 1)) := by
      rw [Int.negSucc_eq, Int.negSucc_eq]
      push_cast [Nat.one_le_two_pow]
      ring
    have hdiff : Nat.ldiff (2 ^ k * m + (2 ^ k - 1)) b = 2 ^ k * m + (2 ^ k - (b + 1)) := by
      apply Nat.eq_of_testBit_eq
      intro i
      rw [Nat.testBit_ldiff, Nat.testBit_two_pow_mul_add _ (by omega),
        Nat.testBit_two_pow_mul_add _ (by omega)]
      split
      case isTrue hi =>
        rw [Nat.testBit_two_pow_sub_one, Nat.testBit_two_pow_sub_succ hb]
      case isFalse hi =>
        have hbit : b.testBit i = false := Nat.testBit_lt_two_pow
          (Nat.lt_of_lt_of_le hb (Nat.pow_le_pow_right (by decide) (Nat.not_lt.1 hi)))
        rw [hbit, Bool.not_false, Bool.and_true]
    rw [hshift]
    show Int.negSucc (Nat.ldiff (2 ^ k * m + (2 ^ k - 1)) b) = _
    rw [hdiff, Int.negSucc_eq, Int.negSucc_eq]
    push_cast [Nat.succ_le_of_lt hb, Nat.one_le_two_pow]
    ring

/-- A number shifted by the bits of some bytes, with these set in it. -/
theorem lor_unsigned (high : Int) (bytes : List UInt8) {k : Nat} (hk : 8 * bytes.length = k) :
    Int.lor (high * 2 ^ k) (unsigned bytes) = after high bytes := by
  have hpow : (256 : Nat) ^ bytes.length = 2 ^ k := by
    rw [← hk, Nat.pow_mul]
  have hlt := unsigned_lt bytes
  rw [hpow] at hlt
  rw [lor_shifted high hlt, after]
  congr 2
  exact_mod_cast hpow.symm

theorem lor_comm (a b : Int) : Int.lor a b = Int.lor b a := by
  cases a <;> cases b
  · exact congrArg Int.ofNat (Nat.or_comm _ _)
  · rfl
  · rfl
  · exact congrArg Int.negSucc (Nat.and_comm _ _)

/-- A mask of the low bits takes the remainder. -/
theorem land_mask (a : Int) (k : Nat) : Int.land a ((2 ^ k - 1 : Nat) : Int) = a % 2 ^ k := by
  cases a with
  | ofNat m =>
    show ((m &&& (2 ^ k - 1) : Nat) : Int) = _
    rw [Nat.and_two_pow_sub_one_eq_mod]
    push_cast
    rfl
  | negSucc m =>
    have hdiff : Nat.ldiff (2 ^ k - 1) m = 2 ^ k - (m % 2 ^ k + 1) := by
      apply Nat.eq_of_testBit_eq
      intro i
      rw [Nat.testBit_ldiff, Nat.testBit_two_pow_sub_one,
        Nat.testBit_two_pow_sub_succ (Nat.mod_lt _ (Nat.two_pow_pos k)), Nat.testBit_mod_two_pow]
      by_cases hi : i < k <;> simp [hi]
    show ((Nat.ldiff (2 ^ k - 1) m : Nat) : Int) = _
    rw [hdiff, Int.negSucc_emod _ (by positivity)]
    push_cast [Nat.succ_le_of_lt (Nat.mod_lt m (Nat.two_pow_pos k))]
    ring

end TwosComplement
