import Mathlib.Data.List.Basic
import Mathlib.Data.Nat.Bitwise
import Mathlib.Tactic.IntervalCases
import Mathlib.Tactic.Ring

/-!
# LEB128

Integers in groups of seven bits, the lowest first, a high bit on every byte but the last. The
encoders and decoders work on 32 bits. The decoder of unsigned values refuses what does not fit;
the decoder of signed values drops the highest bits of the fifth byte.
-/

namespace Leb128

/-- The bytes up to the first without a high bit, which ends the sequence. -/
def encoded : List UInt8 → Option (List UInt8)
  | [] => none
  | byte :: rest => if 0x80 ≤ byte.toNat then (encoded rest).map (byte :: ·) else some [byte]

def payload (byte : UInt8) : Nat := byte.toNat % 0x80

def unsignedValue : List UInt8 → Nat
  | [] => 0
  | byte :: rest => payload byte + 0x80 * unsignedValue rest

/-- Bit 6 of the last byte is the sign. -/
def negative : List UInt8 → Bool
  | [] => false
  | [byte] => 0x40 ≤ payload byte
  | _ :: rest => negative rest

def signedValue (bytes : List UInt8) : Int :=
  unsignedValue bytes - if negative bytes then 0x80 ^ bytes.length else 0

def maxUint32 : Int := 0xFFFFFFFF

def minInt32 : Int := -0x80000000

def maxInt32 : Int := 0x7FFFFFFF

def pushByte (bits : BitVec 32) : UInt8 := UInt8.ofNat bits.toNat

/-- The loop of `encodeULEB128`. -/
def encodeULoop (remaining : BitVec 32) : List UInt8 :=
  if remaining = 0 then []
  else
    let byte := remaining &&& 0x7F
    let remaining' := remaining >>> 7
    if remaining' = 0 then [pushByte byte]
    else pushByte (byte ||| 0x80) :: encodeULoop remaining'
termination_by remaining.toNat
decreasing_by
  rename_i h _
  have hpos : remaining.toNat ≠ 0 := fun hzero => h (BitVec.eq_of_toNat_eq hzero)
  rw [BitVec.toNat_ushiftRight, Nat.shiftRight_eq_div_pow]
  omega

def encodeULEB128 (value : Int) : Except String (List UInt8) :=
  if value < 0 then
    throw s!"`encodeULEB128()`: expected non-negative integer, got `{value}`"
  else if maxUint32 < value then
    throw s!"`encodeULEB128()`: value `{value}` exceeds 32-bit range (max `{maxUint32}`)"
  else if value = 0 then return [0]
  else return encodeULoop (BitVec.ofInt 32 value)

/-- The byte holds all of the value, its sign included. -/
def lastGroup (value : BitVec 32) : Bool :=
  let byte := value &&& 0x7F
  let value' := value.sshiftRight 7
  (value' == 0 && byte &&& 0x40 == 0) || (value' == -1 && byte &&& 0x40 != 0)

theorem toInt_sshiftRight_seven (value : BitVec 32) : (value.sshiftRight 7).toInt = value.toInt / 128 := by
  rw [BitVec.toInt_sshiftRight, Int.shiftRight_eq_div_pow]
  rfl

/-- The loop of `encodeSLEB128`. -/
def encodeSLoop (value : BitVec 32) : List UInt8 :=
  let byte := value &&& 0x7F
  let value' := value.sshiftRight 7
  if lastGroup value then [pushByte byte] else pushByte (byte ||| 0x80) :: encodeSLoop value'
termination_by value.toInt.natAbs
decreasing_by
  rename_i h
  have hzero : value.toInt ≠ 0 := by
    intro hzero
    apply h
    rw [← BitVec.toInt_zero, BitVec.toInt_inj] at hzero
    rw [hzero]
    decide
  have hone : value.toInt ≠ -1 := by
    intro hone
    apply h
    rw [show (-1 : Int) = (-1 : BitVec 32).toInt from rfl, BitVec.toInt_inj] at hone
    rw [hone]
    decide
  rw [toInt_sshiftRight_seven]
  omega

def encodeSLEB128 (value : Int) : Except String (List UInt8) :=
  if value < minInt32 || maxInt32 < value then
    throw (s!"`encodeSLEB128()`: value `{value}` exceeds signed 32-bit range " ++
      s!"(`{minInt32}..{maxInt32}`)")
  else return encodeSLoop (BitVec.ofInt 32 value)

structure DecodeResult where
  value : Int
  /-- The index of the first byte after the encoded value. -/
  nextIndex : Nat
  deriving DecidableEq, Repr

/-- `(byte & 0x7f) << shift`. A shift takes its count modulo 32. -/
def shifted (byte : UInt8) (shift : Nat) : BitVec 32 :=
  (BitVec.ofNat 32 byte.toNat &&& 0x7F) <<< (shift % 32)

/-- The loop of `decodeULEB128`, over the bytes from `index` on. -/
def decodeULoop (result : BitVec 32) (shift index : Nat) :
    List UInt8 → Except String DecodeResult
  | [] => throw "`decodeULEB128()`: unexpected end of `buffer`"
  | byte :: rest =>
    if 28 ≤ shift && 0x0F < byte &&& 0x7F then
      throw "`decodeULEB128()`: value exceeds 32-bit range"
    else if 35 ≤ shift then throw "`decodeULEB128()`: value exceeds 32-bit range"
    else
      let result' := result ||| shifted byte shift
      if byte &&& 0x80 ≠ 0 then decodeULoop result' (shift + 7) (index + 1) rest
      else return ⟨result'.toNat, index + 1⟩

def decodeULEB128 (buffer : List UInt8) (index : Nat) : Except String DecodeResult :=
  decodeULoop 0 0 index (buffer.drop index)

/-- The sign extension after the loop, where `byte` is the last. -/
def signExtended (result : BitVec 32) (shift : Nat) (byte : UInt8) : BitVec 32 :=
  if shift < 32 && byte &&& 0x40 ≠ 0 then result ||| -(1#32 <<< (shift % 32)) else result

/-- The loop of `decodeSLEB128`. -/
def decodeSLoop (result : BitVec 32) (shift index : Nat) :
    List UInt8 → Except String DecodeResult
  | [] => throw "`decodeSLEB128()`: unexpected end of `buffer`"
  | byte :: rest =>
    if 35 ≤ shift then throw "`decodeSLEB128()`: value exceeds signed 32-bit range"
    else
      let result' := result ||| shifted byte shift
      if byte &&& 0x80 ≠ 0 then decodeSLoop result' (shift + 7) (index + 1) rest
      else return ⟨(signExtended result' (shift + 7) byte).toInt, index + 1⟩

def decodeSLEB128 (buffer : List UInt8) (index : Nat) : Except String DecodeResult :=
  decodeSLoop 0 0 index (buffer.drop index)

theorem high_iff (byte : UInt8) : byte &&& 0x80 ≠ 0 ↔ 0x80 ≤ byte.toNat := by
  obtain ⟨⟨n⟩⟩ := byte
  revert n
  decide +kernel

theorem sign_iff (byte : UInt8) : byte &&& 0x40 ≠ 0 ↔ 0x40 ≤ payload byte := by
  obtain ⟨⟨n⟩⟩ := byte
  revert n
  decide +kernel

theorem overflow_iff (byte : UInt8) : 0x0F < byte &&& 0x7F ↔ 0x0F < payload byte := by
  obtain ⟨⟨n⟩⟩ := byte
  revert n
  decide +kernel

theorem payload_lt (byte : UInt8) : payload byte < 0x80 := Nat.mod_lt _ (by decide)

theorem toNat_shifted (byte : UInt8) {shift : Nat} (h : shift < 32) :
    (shifted byte shift).toNat = payload byte % 2 ^ (32 - shift) * 2 ^ shift := by
  have hbyte : (BitVec.ofNat 32 byte.toNat &&& 0x7F).toNat = payload byte := by
    have := byte.toNat_lt
    rw [BitVec.toNat_and, BitVec.toNat_ofNat, Nat.mod_eq_of_lt (by omega)]
    exact Nat.and_two_pow_sub_one_eq_mod byte.toNat 7
  have hpow : 2 ^ 32 = 2 ^ (32 - shift) * 2 ^ shift := by
    rw [← Nat.pow_add, Nat.sub_add_cancel (Nat.le_of_lt h)]
  rw [shifted, Nat.mod_eq_of_lt h, BitVec.toNat_shiftLeft, hbyte, Nat.shiftLeft_eq]
  conv_lhs => rw [hpow]
  exact Nat.mul_mod_mul_right _ _ _

variable {result : BitVec 32} {bytes : List UInt8} {byte : UInt8} {k : Nat}

/-- A group above the bits read so far is added to them. -/
theorem toNat_or_shifted (byte : UInt8) {shift : Nat} (h : shift < 32)
    (hresult : result.toNat < 2 ^ shift) :
    (result ||| shifted byte shift).toNat =
      result.toNat + payload byte % 2 ^ (32 - shift) * 2 ^ shift := by
  rw [BitVec.toNat_or, toNat_shifted byte h, Nat.or_comm, Nat.mul_comm,
    ← Nat.two_pow_add_eq_or_of_lt hresult, Nat.add_comm]

theorem encoded_ne_nil {e : List UInt8} (h : encoded bytes = some e) : e ≠ [] := by
  cases bytes with
  | nil => cases h
  | cons byte rest =>
    rw [encoded] at h
    split at h
    · obtain ⟨_, _, rfl⟩ := Option.map_eq_some_iff.1 h
      exact List.cons_ne_nil _ _
    · rw [← Option.some.inj h]
      exact List.cons_ne_nil _ _

theorem payload_le_of_encoded {rest e : List UInt8}
    (h : encoded (byte :: rest) = some e) : payload byte ≤ unsignedValue e := by
  rw [encoded] at h
  split at h
  · obtain ⟨e', _, rfl⟩ := Option.map_eq_some_iff.1 h
    exact Nat.le_add_right _ _
  · rw [← Option.some.inj h]
    exact Nat.le_add_right _ _

/-- Up to the fifth byte nothing is lost, nor with the fifth where its group has four bits. -/
theorem fits_lt (hk : k ≤ 4)
    (hfits : ¬(k = 4 ∧ 0x0F < payload byte)) (hresult : result.toNat < 2 ^ (7 * k)) :
    result.toNat + payload byte * 2 ^ (7 * k) < 2 ^ 32 := by
  have hp := payload_lt byte
  interval_cases k <;> omega

theorem toNat_or_shifted_of_fits (hk : k ≤ 4)
    (hfits : ¬(k = 4 ∧ 0x0F < payload byte)) (hresult : result.toNat < 2 ^ (7 * k)) :
    (result ||| shifted byte (7 * k)).toNat = result.toNat + payload byte * 2 ^ (7 * k) := by
  have hp := payload_lt byte
  rw [toNat_or_shifted byte (by omega) hresult, Nat.mod_eq_of_lt]
  interval_cases k <;> omega

/-- Nothing is read of bytes whose whole sequence, if they hold one, is refused. -/
theorem bind_encoded_none {β : Type} {read : List UInt8 → Option β}
    (h : ∀ e, encoded bytes = some e → read e = none) : (encoded bytes).bind read = none := by
  cases he : encoded bytes with
  | none => rfl
  | some e => exact h e he

/-- The decoder reads the whole sequence, if it takes at most five bytes and denotes a number
below 2^32, and throws if not. -/
theorem decodeULoop_eq (hk : k ≤ 5)
    (hresult : result.toNat < 2 ^ (7 * k)) (index : Nat) (bytes : List UInt8) :
    (decodeULoop result (7 * k) index bytes).toOption = (encoded bytes).bind fun e =>
      if k + e.length ≤ 5 ∧ result.toNat + 2 ^ (7 * k) * unsignedValue e < 2 ^ 32 then
        some ⟨(result.toNat + 2 ^ (7 * k) * unsignedValue e : Nat), index + e.length⟩
      else none := by
  induction bytes generalizing result k index with
  | nil => rfl
  | cons byte rest ih =>
    have hp := payload_lt byte
    by_cases hfive : k = 5
    · -- A sixth byte is refused, whatever follows.
      subst hfive
      rw [bind_encoded_none, decodeULoop, if_pos (show 35 ≤ 7 * 5 by decide)]
      · split <;> rfl
      · intro e he
        have := List.length_pos_iff.2 (encoded_ne_nil he)
        exact if_neg (by omega)
    · have hk' : k ≤ 4 := by omega
      by_cases hover : k = 4 ∧ 0x0F < payload byte
      · -- The fifth byte goes past 32 bits.
        obtain ⟨rfl, hover⟩ := hover
        rw [bind_encoded_none, decodeULoop, if_pos (by simpa using (overflow_iff byte).2 hover)]
        · rfl
        · intro e he
          have hle := payload_le_of_encoded he
          refine if_neg fun h => ?_
          omega
      · have hbyte := toNat_or_shifted_of_fits hk' hover hresult
        have hstep : decodeULoop result (7 * k) index (byte :: rest) =
            if byte &&& 0x80 ≠ 0 then
              decodeULoop (result ||| shifted byte (7 * k)) (7 * (k + 1)) (index + 1) rest
            else return ⟨(result ||| shifted byte (7 * k)).toNat, index + 1⟩ := by
          rw [decodeULoop, if_neg, if_neg (by omega), Nat.mul_succ]
          rw [Bool.and_eq_true, decide_eq_true_eq, decide_eq_true_eq, overflow_iff]
          exact fun h => hover ⟨by omega, h.2⟩
        have hpow : 2 ^ (7 * (k + 1)) = 2 ^ (7 * k) * 128 := by rw [Nat.mul_succ, Nat.pow_add]
        have hscaled : payload byte * 2 ^ (7 * k) ≤ 127 * 2 ^ (7 * k) :=
          Nat.mul_le_mul_right _ (by omega)
        rw [hstep, encoded]
        by_cases hhigh : byte &&& 0x80 ≠ 0
        · rw [if_pos hhigh, if_pos ((high_iff byte).1 hhigh), ih (by omega) (by omega), hbyte]
          cases encoded rest with
          | none => rw [Option.map_none, Option.bind_none, Option.bind_none]
          | some e =>
            have hsum : result.toNat + payload byte * 2 ^ (7 * k) +
                2 ^ (7 * (k + 1)) * unsignedValue e =
                  result.toNat + 2 ^ (7 * k) * unsignedValue (byte :: e) := by
              rw [unsignedValue, hpow]
              ring
            have hlength : k + 1 + e.length = k + (byte :: e).length ∧
                index + 1 + e.length = index + (byte :: e).length := by
              rw [List.length_cons]
              omega
            rw [Option.map_some, Option.bind_some, Option.bind_some, hsum, hlength.1, hlength.2]
        · rw [if_neg hhigh, if_neg (fun h => hhigh ((high_iff byte).2 h)), hbyte]
          have hlt := fits_lt hk' hover hresult
          have hvalue : unsignedValue [byte] = payload byte := rfl
          rw [Option.bind_some, hvalue, Nat.mul_comm (2 ^ (7 * k)),
            if_pos ⟨by rw [List.length_singleton]; omega, hlt⟩]
          rfl

theorem signedValue_cons {e : List UInt8} (h : e ≠ []) :
    signedValue (byte :: e) = payload byte + 0x80 * signedValue e := by
  cases e with
  | nil => exact absurd rfl h
  | cons next e =>
    have hnegative : negative (byte :: next :: e) = negative (next :: e) := rfl
    have hpow : (0x80 : Int) ^ (byte :: next :: e).length = 0x80 * 0x80 ^ (next :: e).length := by
      rw [List.length_cons, pow_succ, Int.mul_comm]
    rw [signedValue, signedValue, unsignedValue, hnegative, hpow]
    push_cast
    split <;> ring

theorem signedValue_singleton (byte : UInt8) :
    signedValue [byte] = (payload byte : Int) - if 0x40 ≤ payload byte then 0x80 else 0 := by
  simp [signedValue, unsignedValue, negative]

/-- Ones from bit `shift` on. -/
theorem toNat_or_neg {x : BitVec 32} {shift : Nat} (h : shift < 32) (hx : x.toNat < 2 ^ shift) :
    (x ||| -(1#32 <<< (shift % 32))).toNat = x.toNat + (2 ^ (32 - shift) - 1) * 2 ^ shift := by
  have hneg : ∀ s < 32, (-(1#32 <<< (s % 32))).toNat = (2 ^ (32 - s) - 1) * 2 ^ s := by
    decide +kernel
  rw [BitVec.toNat_or, hneg shift h, Nat.or_comm, Nat.mul_comm, ← Nat.two_pow_add_eq_or_of_lt hx,
    Nat.add_comm]

/-- The last group, its sign carried on to bit 31. -/
theorem signExtended_eq (hk : k ≤ 4) (hresult : result.toNat < 2 ^ (7 * k)) :
    signExtended (result ||| shifted byte (7 * k)) (7 * (k + 1)) byte =
      BitVec.ofInt 32 (result.toNat + 2 ^ (7 * k) * signedValue [byte]) := by
  have hp := payload_lt byte
  have hor := toNat_or_shifted byte (by omega) hresult
  have hsign := sign_iff byte
  rw [signedValue_singleton]
  apply BitVec.eq_of_toNat_eq
  rw [BitVec.toNat_ofInt, signExtended]
  by_cases hnegative : 0x40 ≤ payload byte
  · rw [if_pos hnegative]
    by_cases hlast : k = 4
    · -- The fifth group is not extended: its sign bit is past bit 31.
      subst hlast
      rw [if_neg (by simp), hor]
      omega
    · have hshift : 7 * (k + 1) < 32 := by omega
      rw [if_pos (by simpa [hshift] using hsign.2 hnegative), toNat_or_neg hshift, hor]
      · interval_cases k <;> omega
      · rw [hor]
        interval_cases k <;> omega
  · rw [if_neg hnegative, if_neg (by simpa using fun _ => not_not.1 (mt hsign.1 hnegative)), hor]
    interval_cases k <;> omega

/-- What is lost of a group above bit 31 is no part of the lowest 32 bits. -/
theorem ofInt_group {result' : BitVec 32} (byte : UInt8) (hk : k ≤ 4)
    (h : result'.toNat = result.toNat + payload byte % 2 ^ (32 - 7 * k) * 2 ^ (7 * k))
    (rest : Int) :
    BitVec.ofInt 32 (result'.toNat + 2 ^ (7 * (k + 1)) * rest) =
      BitVec.ofInt 32 (result.toNat + 2 ^ (7 * k) * (payload byte + 0x80 * rest)) := by
  apply BitVec.eq_of_toNat_eq
  rw [BitVec.toNat_ofInt, BitVec.toNat_ofInt, h]
  interval_cases k <;> omega

/-- The decoder reads every whole sequence of at most five bytes, and answers with the lowest 32
bits of what it denotes. -/
theorem decodeSLoop_eq (hk : k ≤ 5)
    (hresult : result.toNat < 2 ^ (7 * k)) (index : Nat) (bytes : List UInt8) :
    (decodeSLoop result (7 * k) index bytes).toOption = (encoded bytes).bind fun e =>
      if k + e.length ≤ 5 then
        some ⟨(BitVec.ofInt 32 (result.toNat + 2 ^ (7 * k) * signedValue e)).toInt,
          index + e.length⟩
      else none := by
  induction bytes generalizing result k index with
  | nil => rfl
  | cons byte rest ih =>
    have hp := payload_lt byte
    by_cases hfive : k = 5
    · subst hfive
      rw [bind_encoded_none, decodeSLoop, if_pos (show 35 ≤ 7 * 5 by decide)]
      · rfl
      · intro e he
        have := List.length_pos_iff.2 (encoded_ne_nil he)
        exact if_neg (by omega)
    · have hk' : k ≤ 4 := by omega
      have hor := toNat_or_shifted byte (show 7 * k < 32 by omega) hresult
      have hstep : decodeSLoop result (7 * k) index (byte :: rest) =
          if byte &&& 0x80 ≠ 0 then
            decodeSLoop (result ||| shifted byte (7 * k)) (7 * (k + 1)) (index + 1) rest
          else return ⟨(signExtended (result ||| shifted byte (7 * k)) (7 * (k + 1)) byte).toInt,
            index + 1⟩ := by
        rw [decodeSLoop, if_neg (by omega), Nat.mul_succ]
      rw [hstep, encoded]
      by_cases hhigh : byte &&& 0x80 ≠ 0
      · rw [if_pos hhigh, if_pos ((high_iff byte).1 hhigh), ih (by omega)]
        · cases he : encoded rest with
          | none => rw [Option.map_none, Option.bind_none, Option.bind_none]
          | some e =>
            have hlength : k + 1 + e.length = k + (byte :: e).length ∧
                index + 1 + e.length = index + (byte :: e).length := by
              rw [List.length_cons]
              omega
            rw [Option.map_some, Option.bind_some, Option.bind_some, hlength.1, hlength.2,
              signedValue_cons (encoded_ne_nil he), ofInt_group byte hk' hor]
        · rw [hor]
          interval_cases k <;> omega
      · rw [if_neg hhigh, if_neg (fun h => hhigh ((high_iff byte).2 h)), Option.bind_some,
          if_pos (by rw [List.length_singleton]; omega), signExtended_eq hk' hresult]
        rfl

theorem encoded_append {e : List UInt8} (h : encoded bytes = some e) (after : List UInt8) :
    encoded (bytes ++ after) = some e := by
  induction bytes generalizing e with
  | nil => cases h
  | cons byte rest ih =>
    rw [List.cons_append, encoded]
    rw [encoded] at h
    split at h
    case isTrue hhigh =>
      obtain ⟨e', he', rfl⟩ := Option.map_eq_some_iff.1 h
      rw [if_pos hhigh, ih he', Option.map_some]
    case isFalse hhigh =>
      rw [if_neg hhigh]
      exact h

section

variable (value : BitVec 32)
include value

theorem toNat_and_mask : (value &&& 0x7F).toNat = value.toNat % 0x80 := by
  rw [BitVec.toNat_and]
  exact Nat.and_two_pow_sub_one_eq_mod value.toNat 7

/-- The last byte of a sequence has its group alone. -/
theorem pushByte_last : (pushByte (value &&& 0x7F)).toNat = value.toNat % 0x80 := by
  rw [pushByte, UInt8.toNat_ofNat', toNat_and_mask]
  omega

theorem pushByte_more : (pushByte (value &&& 0x7F ||| 0x80)).toNat = 0x80 + value.toNat % 0x80 := by
  have hlow : value.toNat % 0x80 < 2 ^ 7 := Nat.mod_lt _ (by decide)
  have hor : value.toNat % 0x80 ||| 0x80 = 0x80 + value.toNat % 0x80 := by
    rw [Nat.or_comm]
    exact (Nat.two_pow_add_eq_or_of_lt hlow 1).symm
  rw [pushByte, UInt8.toNat_ofNat', BitVec.toNat_or, toNat_and_mask,
    show (0x80 : BitVec 32).toNat = 0x80 from rfl, hor]
  omega

theorem encoded_last : encoded [pushByte (value &&& 0x7F)] = some [pushByte (value &&& 0x7F)] := by
  rw [encoded, if_neg]
  rw [pushByte_last]
  omega

theorem encoded_more {rest : List UInt8} (h : encoded rest = some rest) :
    encoded (pushByte (value &&& 0x7F ||| 0x80) :: rest) =
      some (pushByte (value &&& 0x7F ||| 0x80) :: rest) := by
  rw [encoded, if_pos, h, Option.map_some]
  rw [pushByte_more]
  omega

theorem payload_last : payload (pushByte (value &&& 0x7F)) = value.toNat % 0x80 := by
  rw [payload, pushByte_last, Nat.mod_mod]

theorem payload_more : payload (pushByte (value &&& 0x7F ||| 0x80)) = value.toNat % 0x80 := by
  rw [payload, pushByte_more, Nat.add_mod_left, Nat.mod_mod]

end

/-- The bytes of a number are one sequence that denotes it, of `n` bytes where it is below
`2 ^ (7 * n)`. -/
theorem encodeULoop_spec {remaining : BitVec 32} (h : remaining ≠ 0) :
    encoded (encodeULoop remaining) = some (encodeULoop remaining) ∧
      unsignedValue (encodeULoop remaining) = remaining.toNat ∧
      ∀ n, remaining.toNat < 0x80 ^ n → (encodeULoop remaining).length ≤ n := by
  have hdiv (value : BitVec 32) : (value >>> 7).toNat = value.toNat / 0x80 := by
    rw [BitVec.toNat_ushiftRight, Nat.shiftRight_eq_div_pow]
  have hpositive (value : BitVec 32) (hne : value ≠ 0) : 0 < value.toNat := by
    apply Nat.pos_of_ne_zero
    exact fun hzero => hne (BitVec.eq_of_toNat_eq hzero)
  fun_induction encodeULoop remaining with
  | case1 => exact absurd rfl h
  | case2 remaining hne byte remaining' hlast =>
    have hsmall := hdiv remaining
    rw [show remaining >>> 7 = 0 from hlast] at hsmall
    have hzero : (0 : BitVec 32).toNat = 0 := rfl
    refine ⟨encoded_last remaining, ?_, fun n hn => ?_⟩
    · rw [unsignedValue, payload_last, unsignedValue]
      omega
    · cases n with
      | zero =>
        have := hpositive remaining hne
        omega
      | succ n => simp
  | case3 remaining hne byte remaining' hmore ih =>
    obtain ⟨hencoded, hvalue, hlength⟩ := ih hmore
    refine ⟨encoded_more remaining hencoded, ?_, fun n hn => ?_⟩
    · rw [unsignedValue, payload_more, hvalue, hdiv remaining]
      omega
    · cases n with
      | zero =>
        have := hpositive remaining hne
        omega
      | succ n =>
        have := hlength n (by
          rw [hdiv remaining, Nat.div_lt_iff_lt_mul (by decide), ← Nat.pow_succ]
          exact hn)
        rw [List.length_cons]
        omega

theorem toNat_mod (value : BitVec 32) : ((value.toNat % 0x80 : Nat) : Int) = value.toInt % 0x80 := by
  rw [BitVec.toInt_eq_toNat_cond]
  split <;> omega

theorem signBit_iff (value : BitVec 32) : (value &&& 0x7F &&& 0x40 == 0) = (value.toNat % 0x80 < 0x40) := by
  have hbit : ∀ n < 0x80, (n &&& 0x40 = 0) = (n < 0x40) := by decide +kernel
  rw [beq_iff_eq, ← hbit _ (Nat.mod_lt _ (by decide)), ← toNat_and_mask, ← BitVec.toNat_inj,
    BitVec.toNat_and]
  rfl

/-- The last byte is the first whose seven bits hold the value. -/
theorem lastGroup_iff (value : BitVec 32) :
    lastGroup value = true ↔ -0x40 ≤ value.toInt ∧ value.toInt < 0x40 := by
  have hmod := toNat_mod value
  have hdiv := toInt_sshiftRight_seven value
  have hzero : (value.sshiftRight 7 == 0) = true ↔ value.toInt / 128 = 0 := by
    rw [beq_iff_eq, ← hdiv, ← BitVec.toInt_inj]
    rfl
  have hone : (value.sshiftRight 7 == -1) = true ↔ value.toInt / 128 = -1 := by
    rw [beq_iff_eq, ← hdiv, ← BitVec.toInt_inj]
    rfl
  have hsign := signBit_iff value
  rw [lastGroup, Bool.or_eq_true, Bool.and_eq_true, Bool.and_eq_true, hzero, hone, bne, hsign,
    Bool.not_eq_true', ← Bool.not_eq_true, hsign]
  omega

/-- The bytes of an integer are one sequence that denotes it. -/
theorem encodeSLoop_spec (value : BitVec 32) :
    encoded (encodeSLoop value) = some (encodeSLoop value) ∧
      signedValue (encodeSLoop value) = value.toInt ∧
      ∀ n, -(0x40 * 0x80 ^ n) ≤ value.toInt → value.toInt < 0x40 * 0x80 ^ n →
        (encodeSLoop value).length ≤ n + 1 := by
  have hmod (value : BitVec 32) := toNat_mod value
  fun_induction encodeSLoop value with
  | case1 value byte hlast =>
    have hm := hmod value
    rw [lastGroup_iff] at hlast
    refine ⟨encoded_last value, ?_, fun n _ _ => by simp⟩
    rw [signedValue_singleton, payload_last]
    split <;> omega
  | case2 value byte value' hmore ih =>
    have hm := hmod value
    have hdiv : value'.toInt = value.toInt / 128 := toInt_sshiftRight_seven value
    obtain ⟨hencoded, hvalue, hlength⟩ := ih
    rw [lastGroup_iff] at hmore
    refine ⟨encoded_more value hencoded, ?_, fun n hlow hhigh => ?_⟩
    · rw [signedValue_cons (encoded_ne_nil hencoded), payload_more, hvalue, hdiv]
      omega
    · cases n with
      | zero => omega
      | succ n =>
        rw [Int.pow_succ] at hlow hhigh
        have := hlength n (by omega) (by omega)
        rw [List.length_cons]
        omega

/-- The answer of a decoder is right: it throws, or it has read the sequence of bytes at the
index and answers with what that denotes, a number of its range. -/
def Right (denoted : List UInt8 → Int) (min max : Int) (buffer : List UInt8) (index : Nat)
    (answer : Except String DecodeResult) : Prop :=
  ∀ result ∈ answer.toOption, ∃ bytes, encoded (buffer.drop index) = some bytes ∧
    result.value = denoted bytes ∧ result.nextIndex = index + bytes.length ∧
    min ≤ result.value ∧ result.value ≤ max

/-- The sequence has not five bytes, or bits 3 to 6 of the fifth are the same. -/
def SignFits (buffer : List UInt8) (index : Nat) : Prop :=
  ∀ bytes ∈ encoded (buffer.drop index), ∀ fifth ∈ bytes[4]?,
    bytes.length = 5 → payload fifth < 0x08 ∨ 0x78 ≤ payload fifth

theorem decodeULEB128_eq (buffer : List UInt8) (index : Nat) :
    (decodeULEB128 buffer index).toOption = (encoded (buffer.drop index)).bind fun e =>
      if e.length ≤ 5 ∧ unsignedValue e < 2 ^ 32 then
        some ⟨unsignedValue e, index + e.length⟩
      else none := by
  have h := decodeULoop_eq (k := 0) (Nat.zero_le 5) (show (0 : BitVec 32).toNat < _ by decide) index
    (buffer.drop index)
  rw [decodeULEB128, show (0 : Nat) = 7 * 0 from rfl, h]
  congr 1
  funext e
  simp

theorem decodeSLEB128_eq (buffer : List UInt8) (index : Nat) :
    (decodeSLEB128 buffer index).toOption = (encoded (buffer.drop index)).bind fun e =>
      if e.length ≤ 5 then some ⟨(BitVec.ofInt 32 (signedValue e)).toInt, index + e.length⟩
      else none := by
  have h := decodeSLoop_eq (k := 0) (Nat.zero_le 5) (show (0 : BitVec 32).toNat < _ by decide) index
    (buffer.drop index)
  rw [decodeSLEB128, show (0 : Nat) = 7 * 0 from rfl, h]
  congr 1
  funext e
  simp

theorem right_decodeULEB128 (buffer : List UInt8) (index : Nat) :
    Right (fun bytes => unsignedValue bytes) 0 maxUint32 buffer index
      (decodeULEB128 buffer index) := by
  intro result hresult
  rw [Option.mem_def, decodeULEB128_eq, Option.bind_eq_some_iff] at hresult
  obtain ⟨bytes, hbytes, hresult⟩ := hresult
  split at hresult
  case isTrue hfits =>
    cases Option.some.inj hresult
    refine ⟨bytes, hbytes, rfl, rfl, Int.natCast_nonneg _, ?_⟩
    have := hfits.2
    simp only [maxUint32]
    omega
  case isFalse _ => cases hresult

/-- Up to four bytes hold no integer past 32 bits, and the sign bits of a fifth say whether five
do. -/
theorem int32_iff (hne : bytes ≠ []) (hlength : bytes.length ≤ 5) :
    (minInt32 ≤ signedValue bytes ∧ signedValue bytes ≤ maxInt32) ↔
      ∀ fifth ∈ bytes[4]?, payload fifth < 0x08 ∨ 0x78 ≤ payload fifth := by
  have hpayload := payload_lt
  have hcons (byte next : UInt8) (rest : List UInt8) :
      signedValue (byte :: next :: rest) = payload byte + 0x80 * signedValue (next :: rest) :=
    signedValue_cons (List.cons_ne_nil next rest)
  have hlast (byte : UInt8) : -0x40 ≤ signedValue [byte] ∧ signedValue [byte] < 0x40 := by
    have := hpayload byte
    rw [signedValue_singleton]
    split <;> omega
  rcases bytes with _ | ⟨a, _ | ⟨b, _ | ⟨c, _ | ⟨d, _ | ⟨e, _ | ⟨f, rest⟩⟩⟩⟩⟩⟩
  · exact absurd rfl hne
  · have := hlast a
    simp [minInt32, maxInt32]
    omega
  · have := hlast b
    have := hpayload a
    simp [minInt32, maxInt32, hcons]
    omega
  · have := hlast c
    have := hpayload a
    have := hpayload b
    simp [minInt32, maxInt32, hcons]
    omega
  · have := hlast d
    have := hpayload a
    have := hpayload b
    have := hpayload c
    simp [minInt32, maxInt32, hcons]
    omega
  · have := hpayload a
    have := hpayload b
    have := hpayload c
    have := hpayload d
    have := hpayload e
    simp only [minInt32, maxInt32, hcons, signedValue_singleton, List.getElem?_cons_succ,
      List.getElem?_cons_zero, Option.mem_some_iff, forall_eq']
    split <;> omega
  · simp only [List.length_cons] at hlength
    omega

theorem toInt_ofInt_eq_iff (value : Int) :
    (BitVec.ofInt 32 value).toInt = value ↔ minInt32 ≤ value ∧ value ≤ maxInt32 := by
  simp only [minInt32, maxInt32]
  rw [BitVec.toInt_ofInt]
  constructor
  · intro h
    have := Int.le_bmod (x := value) (m := 2 ^ 32) (by decide)
    have := Int.bmod_lt (x := value) (m := 2 ^ 32) (by decide)
    omega
  · intro h
    apply Int.bmod_eq_of_le <;> omega

/-- The decoder of signed values is right where the sign bits of a fifth byte are the same, and
only there. -/
theorem right_decodeSLEB128_iff (buffer : List UInt8) (index : Nat) :
    Right signedValue minInt32 maxInt32 buffer index (decodeSLEB128 buffer index) ↔
      SignFits buffer index := by
  constructor
  · intro hright bytes hbytes fifth hfifth hlength
    have hanswer : (decodeSLEB128 buffer index).toOption =
        some ⟨(BitVec.ofInt 32 (signedValue bytes)).toInt, index + bytes.length⟩ := by
      rw [decodeSLEB128_eq, Option.mem_def.1 hbytes, Option.bind_some, if_pos (by omega)]
    obtain ⟨bytes', hbytes', hvalue, _, hrange⟩ := hright _ hanswer
    cases hbytes'.symm.trans hbytes
    rw [hvalue] at hrange
    exact (int32_iff (encoded_ne_nil hbytes) (by omega)).1 hrange fifth hfifth
  · intro hfits result hresult
    rw [Option.mem_def, decodeSLEB128_eq, Option.bind_eq_some_iff] at hresult
    obtain ⟨bytes, hbytes, hresult⟩ := hresult
    split at hresult
    case isTrue hlength =>
      cases Option.some.inj hresult
      have hrange : minInt32 ≤ signedValue bytes ∧ signedValue bytes ≤ maxInt32 := by
        rw [int32_iff (encoded_ne_nil hbytes) hlength]
        intro fifth hfifth
        have hlt : 4 < bytes.length := by
          by_contra hge
          rw [Option.mem_def, List.getElem?_eq_none (by omega)] at hfifth
          cases hfifth
        exact hfits bytes hbytes fifth hfifth (by omega)
      have hvalue := (toInt_ofInt_eq_iff (signedValue bytes)).2 hrange
      refine ⟨bytes, hbytes, hvalue, rfl, ?_⟩
      rw [hvalue]
      exact hrange
    case isFalse _ => cases hresult

theorem eq_ok {answer : Except String DecodeResult} {result : DecodeResult}
    (h : answer.toOption = some result) : answer = .ok result := by
  cases answer with
  | error message => cases h
  | ok other =>
    cases Option.some.inj h
    rfl

theorem encodeULEB128_ok_iff (value : Int) :
    (∃ bytes, encodeULEB128 value = .ok bytes) ↔ 0 ≤ value ∧ value ≤ maxUint32 := by
  unfold encodeULEB128
  constructor
  · rintro ⟨bytes, h⟩
    split at h
    case isTrue _ => cases h
    case isFalse hlow =>
      split at h
      case isTrue _ => cases h
      case isFalse hhigh => exact ⟨Int.not_lt.1 hlow, Int.not_lt.1 hhigh⟩
  · rintro ⟨hlow, hhigh⟩
    rw [if_neg (Int.not_lt.2 hlow), if_neg (Int.not_lt.2 hhigh)]
    split
    case isTrue _ => exact ⟨_, rfl⟩
    case isFalse _ => exact ⟨_, rfl⟩

theorem encodeSLEB128_ok_iff (value : Int) :
    (∃ bytes, encodeSLEB128 value = .ok bytes) ↔ minInt32 ≤ value ∧ value ≤ maxInt32 := by
  unfold encodeSLEB128
  constructor
  · rintro ⟨bytes, h⟩
    split at h
    case isTrue _ => cases h
    case isFalse hrange => simpa using hrange
  · intro hrange
    rw [if_neg (by simpa using hrange)]
    exact ⟨_, rfl⟩

theorem decodeULEB128_encode {value : Int} (h : encodeULEB128 value = .ok bytes)
    (before after : List UInt8) :
    decodeULEB128 (before ++ bytes ++ after) before.length =
      .ok ⟨value, before.length + bytes.length⟩ := by
  unfold encodeULEB128 at h
  split at h
  case isTrue _ => cases h
  split at h
  case isTrue _ => cases h
  have hspec : encoded bytes = some bytes ∧ unsignedValue bytes = value ∧ bytes.length ≤ 5 := by
    split at h
    case isTrue hzero =>
      cases h
      exact ⟨rfl, hzero.symm, by decide⟩
    case isFalse hlow hhigh hzero =>
      cases h
      simp only [maxUint32] at hhigh
      have hvalue : (BitVec.ofInt 32 value).toNat = value := by
        rw [BitVec.toNat_ofInt]
        omega
      have hne : BitVec.ofInt 32 value ≠ 0 := by
        intro hbits
        rw [hbits] at hvalue
        exact hzero hvalue.symm
      obtain ⟨hencoded, hdenoted, hlength⟩ := encodeULoop_spec hne
      refine ⟨hencoded, by rw [hdenoted, hvalue], hlength 5 ?_⟩
      have := (BitVec.ofInt 32 value).isLt
      omega
  obtain ⟨hencoded, hvalue, hlength⟩ := hspec
  have hlt : unsignedValue bytes < 2 ^ 32 := by
    have hmax : value ≤ maxUint32 := by omega
    simp only [maxUint32] at hmax
    omega
  apply eq_ok
  rw [decodeULEB128_eq, List.append_assoc, List.drop_left, encoded_append hencoded,
    Option.bind_some, if_pos ⟨hlength, hlt⟩, hvalue]

theorem decodeSLEB128_encode {value : Int} (h : encodeSLEB128 value = .ok bytes)
    (before after : List UInt8) :
    decodeSLEB128 (before ++ bytes ++ after) before.length =
      .ok ⟨value, before.length + bytes.length⟩ := by
  unfold encodeSLEB128 at h
  split at h
  case isTrue _ => cases h
  case isFalse hrange =>
    cases h
    simp only [Bool.or_eq_true, decide_eq_true_eq, not_or, not_lt] at hrange
    have hvalue := (toInt_ofInt_eq_iff value).2 hrange
    simp only [minInt32, maxInt32] at hrange
    obtain ⟨hencoded, hdenoted, hlength⟩ := encodeSLoop_spec (BitVec.ofInt 32 value)
    rw [hvalue] at hdenoted hlength
    apply eq_ok
    rw [decodeSLEB128_eq, List.append_assoc, List.drop_left, encoded_append hencoded,
      Option.bind_some, if_pos (hlength 4 (by omega) (by omega)), hdenoted, hvalue]

/-- The encoders take the integers of 32 bits, and what they give is decoded to the number, past
its bytes; the unsigned decoder is right about all bytes, and the signed one where no bits above
the thirty-second are lost. -/
theorem decode_right (value : Int) (before after buffer : List UInt8) (index : Nat) :
    ((∃ bytes, encodeULEB128 value = .ok bytes) ↔ 0 ≤ value ∧ value ≤ maxUint32) ∧
    (∀ bytes, encodeULEB128 value = .ok bytes →
      decodeULEB128 (before ++ bytes ++ after) before.length =
        .ok ⟨value, before.length + bytes.length⟩) ∧
    ((∃ bytes, encodeSLEB128 value = .ok bytes) ↔ minInt32 ≤ value ∧ value ≤ maxInt32) ∧
    (∀ bytes, encodeSLEB128 value = .ok bytes →
      decodeSLEB128 (before ++ bytes ++ after) before.length =
        .ok ⟨value, before.length + bytes.length⟩) ∧
    Right (fun bytes => unsignedValue bytes) 0 maxUint32 buffer index
      (decodeULEB128 buffer index) ∧
    (Right signedValue minInt32 maxInt32 buffer index (decodeSLEB128 buffer index) ↔
      SignFits buffer index) :=
  ⟨encodeULEB128_ok_iff value, fun _ h => decodeULEB128_encode h before after,
    encodeSLEB128_ok_iff value, fun _ h => decodeSLEB128_encode h before after,
    right_decodeULEB128 buffer index, right_decodeSLEB128_iff buffer index⟩

/-- Five bytes that denote 2^31 are read as the smallest integer. -/
theorem decodeSLEB128_wraps :
    decodeSLEB128 [0x80, 0x80, 0x80, 0x80, 0x08] 0 = .ok ⟨minInt32, 5⟩ ∧
      ¬Right signedValue minInt32 maxInt32 [0x80, 0x80, 0x80, 0x80, 0x08] 0
        (decodeSLEB128 [0x80, 0x80, 0x80, 0x80, 0x08] 0) := by
  have hanswer : decodeSLEB128 [0x80, 0x80, 0x80, 0x80, 0x08] 0 = .ok ⟨minInt32, 5⟩ := by
    apply eq_ok
    decide +kernel
  refine ⟨hanswer, fun hright => ?_⟩
  rw [hanswer] at hright
  obtain ⟨bytes, hbytes, hvalue, _⟩ := hright _ rfl
  have hsame : encoded (List.drop 0 [0x80, 0x80, 0x80, 0x80, 0x08]) =
      some [0x80, 0x80, 0x80, 0x80, 0x08] := by decide
  cases hbytes.symm.trans hsame
  revert hvalue
  decide +kernel

end Leb128
