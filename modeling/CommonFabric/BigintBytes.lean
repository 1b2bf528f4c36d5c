import CommonFabric.TwosComplement
import Mathlib.Data.Nat.Digits.Defs
import Mathlib.Data.Nat.Digits.Lemmas

/-!
# The two codecs of big integers

A big integer is written as its minimal two's complement bytes. Both codecs store small values byte
by byte. Beyond 64 bits the one takes the bytes out of hexadecimal text and puts values together
from words, and the other has the host turn text into bytes and bytes into text.
-/

namespace BigintBytes

open TwosComplement

def hexDigit (d : Nat) : Nat := if d < 10 then 0x30 + d else 0x57 + d

/-- `value.toString(16)`. -/
def hexText (value : Nat) : List Nat :=
  if value = 0 then [0x30] else (Nat.digits 16 value).reverse.map hexDigit

def nibbleValueAt (hex : List Nat) (at' : Nat) : Nat :=
  let c := hex.getD at' 0
  if c < 0x3a then c - 0x30 else c - 0x57

def byteValueAt (hex : List Nat) (at' : Nat) : Nat :=
  (nibbleValueAt hex at' <<< 4) ||| nibbleValueAt hex (at' + 1)

def hexStringFromPositiveValue (value : Nat) : List Nat :=
  let hex := hexText value
  if hex.length % 2 = 1 then 0x30 :: hex
  else if 8 ≤ nibbleValueAt hex 0 then 0x30 :: 0x30 :: hex
  else hex

/-- What a character stands for, in either case. -/
def hexValue? (c : Nat) : Option Nat :=
  if 0x30 ≤ c ∧ c ≤ 0x39 then some (c - 0x30)
  else if 0x61 ≤ c ∧ c ≤ 0x66 then some (c - 0x57)
  else if 0x41 ≤ c ∧ c ≤ 0x46 then some (c - 0x37)
  else none

/-- `Uint8Array.fromHex(hex)`, which throws on text that is no bytes. -/
def fromHex : List Nat → Option (List UInt8)
  | [] => some []
  | [_] => none
  | a :: b :: rest =>
    match hexValue? a, hexValue? b, fromHex rest with
    | some x, some y, some bytes => some (UInt8.ofNat (16 * x + y) :: bytes)
    | _, _, _ => none

/-- `bytes.toHex()`. -/
def toHex (bytes : List UInt8) : List Nat :=
  bytes.flatMap fun b => [hexDigit (b.toNat / 16), hexDigit (b.toNat % 16)]

/-- What is read of the digits after those read so far. -/
def readHex : Nat → List Nat → Option Nat
  | value, [] => some value
  | value, c :: rest => (hexValue? c).bind fun d => readHex (16 * value + d) rest

/-- `BigInt("0x" + hex)`, which throws where there is no digit. -/
def bigintOfHex (hex : List Nat) : Option Nat := if hex = [] then none else readHex 0 hex

/-- The eight bytes that `setBigInt64` writes, the most significant first. -/
def int64Bytes (value : Int) : List UInt8 :=
  [byteOf (value / 2 ^ 56), byteOf (value / 2 ^ 48), byteOf (value / 2 ^ 40), byteOf (value / 2 ^ 32),
    byteOf (value / 2 ^ 24), byteOf (value / 2 ^ 16), byteOf (value / 2 ^ 8), byteOf value]

/-- The loop of `encode5To8Bytes`, with what a slice from the byte before would hold. -/
def skipBytes (skipByte signBit : UInt8) (before : List UInt8) : List UInt8 → List UInt8
  | [] => if signBit = 0 then [] else before
  | byte :: rest =>
    if byte ≠ skipByte then
      if byte &&& 0x80 = signBit then byte :: rest else before
    else skipBytes skipByte signBit (byte :: rest) rest

def encode5To8Bytes (value : Int) (negative : Bool) : List UInt8 :=
  let skipByte : UInt8 := if negative then 0xff else 0x00
  let signBit := skipByte &&& 0x80
  -- a slice from -1 is the last byte
  skipBytes skipByte signBit [byteOf value] (int64Bytes value)

/-- The values of up to 32 bits, which both encoders store alike. `>>` rounds down. -/
def encodeNumber (num : Int) : List UInt8 :=
  if 0 ≤ num then
    if num ≤ 0x7fff then
      if num ≤ 0x7f then [byteOf num] else [byteOf (num / 2 ^ 8), byteOf num]
    else if num ≤ 0x7fffff then [byteOf (num / 2 ^ 16), byteOf (num / 2 ^ 8), byteOf num]
    else [byteOf (num / 2 ^ 24), byteOf (num / 2 ^ 16), byteOf (num / 2 ^ 8), byteOf num]
  else
    if -0x8000 ≤ num then
      if -0x80 ≤ num then [byteOf num] else [byteOf (num / 2 ^ 8), byteOf num]
    else if -0x800000 ≤ num then [byteOf (num / 2 ^ 16), byteOf (num / 2 ^ 8), byteOf num]
    else [byteOf (num / 2 ^ 24), byteOf (num / 2 ^ 16), byteOf (num / 2 ^ 8), byteOf num]

def bigintToMtcDirect (value : Int) : List UInt8 :=
  if 0 ≤ value then
    if value ≤ 0x7fffffff then encodeNumber value
    else if value ≤ 0x7fffffffffffffff then encode5To8Bytes value false
    else
      let hex := hexStringFromPositiveValue value.toNat
      (List.range (hex.length / 2)).map fun i => UInt8.ofNat (byteValueAt hex (i * 2))
  else
    if -0x80000000 ≤ value then encodeNumber value
    else if -0x8000000000000000 ≤ value then encode5To8Bytes value true
    else
      -- `~value`
      let hex := hexStringFromPositiveValue (-value - 1).toNat
      (List.range (hex.length / 2)).map fun i => UInt8.ofNat (0xff ^^^ byteValueAt hex (i * 2))

/-- The complement of bytes four at a time, through a word in the order of the host's memory, and
of those left over one at a time. -/
def complementWords : List UInt8 → List UInt8
  | a :: b :: c :: d :: rest =>
    let word := ~~~(d.toBitVec ++ c.toBitVec ++ b.toBitVec ++ a.toBitVec)
    ⟨word.extractLsb' 0 8⟩ :: ⟨word.extractLsb' 8 8⟩ :: ⟨word.extractLsb' 16 8⟩ ::
      ⟨word.extractLsb' 24 8⟩ :: complementWords rest
  | rest => rest.map (~~~·)

/-- Nothing where the host throws. -/
def bigintToMtcHex (value : Int) : Option (List UInt8) :=
  if 0 ≤ value then
    if value ≤ 0x7fffffff then some (encodeNumber value)
    else if value ≤ 0x7fffffffffffffff then some (encode5To8Bytes value false)
    else fromHex (hexStringFromPositiveValue value.toNat)
  else
    if -0x80000000 ≤ value then some (encodeNumber value)
    else if -0x8000000000000000 ≤ value then some (encode5To8Bytes value true)
    else (fromHex (hexStringFromPositiveValue (-value - 1).toNat)).map fun result =>
      if result.length < 128 then result.map (~~~·) else complementWords result

/-- `(a << 24) | (b << 16) | (c << 8) | d`; a part that the source leaves out is 0 here. -/
def word (a b c d : UInt8) : BitVec 32 :=
  (a.toBitVec.setWidth 32 <<< 24) ||| (b.toBitVec.setWidth 32 <<< 16) |||
    (c.toBitVec.setWidth 32 <<< 8) ||| d.toBitVec.setWidth 32

def wordAt (bytes : List UInt8) (i : Nat) : BitVec 32 :=
  word (bytes.getD i 0) (bytes.getD (i + 1) 0) (bytes.getD (i + 2) 0) (bytes.getD (i + 3) 0)

/-- `BigInt(w) & 0xffff_ffffn`. -/
def maskedWord (w : BitVec 32) : Int := Int.land w.toInt 0xffffffff

/-- What the bytes ahead of the groups of eight are worth. -/
def leading (bytes : List UInt8) : Int :=
  let partials := bytes.length % 8
  if partials = 0 then if bytes.headD 0 &&& 0x80 ≠ 0 then -1 else 0
  else if partials ≤ 4 then (wordAt bytes 0).toInt / 2 ^ (32 - partials * 8)
  else Int.lor ((wordAt bytes 0).toInt * 2 ^ 32) (maskedWord (wordAt bytes 4)) /
    2 ^ (64 - partials * 8)

/-- The loop over groups of eight bytes, their words taken as they are or complemented. -/
def addGroups (taken : BitVec 32 → BitVec 32) : Int → List UInt8 → Int
  | result, a :: b :: c :: d :: e :: f :: g :: h :: rest =>
    let subResult1 := maskedWord (taken (word a b c d))
    let subResult2 := maskedWord (taken (word e f g h))
    addGroups taken (Int.lor (Int.lor (result * 2 ^ 64) (subResult1 * 2 ^ 32)) subResult2) rest
  | result, _ => result

def decodeLong (bytes : List UInt8) : Int :=
  let negative := bytes.headD 0 &&& 0x80 ≠ 0
  let groups := bytes.drop (bytes.length % 8)
  if ¬negative ∨ bytes.length ≤ 128 then addGroups id (leading bytes) groups
  else -addGroups (~~~·) (-leading bytes - 1) groups - 1

/-- Nothing of no bytes, on which it throws. -/
def bigintFromMtcDirect : List UInt8 → Option Int
  | [] => none
  | [a] => some ((word a 0 0 0).sshiftRight 24).toInt
  | [a, b] => some ((word a b 0 0).sshiftRight 16).toInt
  | [a, b, c] => some ((word a b c 0).sshiftRight 8).toInt
  | [a, b, c, d] => some (word a b c d).toInt
  | [a, b, c, d, e] => some (Int.lor ((word a b c d).toInt * 2 ^ 8) (word 0 0 0 e).toInt)
  | [a, b, c, d, e, f] => some (Int.lor ((word a b c d).toInt * 2 ^ 16) (word 0 0 e f).toInt)
  | [a, b, c, d, e, f, g] => some (Int.lor ((word a b c d).toInt * 2 ^ 24) (word 0 e f g).toInt)
  | [a, b, c, d, e, f, g, h] =>
    some (Int.lor ((word a b c d).toInt * 2 ^ 32) (maskedWord (word e f g h)))
  | bytes => some (decodeLong bytes)

def bigintFromMtcHex (bytes : List UInt8) : Option Int :=
  if bytes.length ≤ 32 then bigintFromMtcDirect bytes
  else (bigintOfHex (toHex bytes)).map fun (positiveResult : Nat) =>
    if bytes.headD 0 ≤ 0x7f then (positiveResult : Int)
    else Int.lor positiveResult (-1 * 2 ^ (bytes.length * 8))

theorem toNat_shifted (a : UInt8) {k : Nat} (h : k ≤ 24) :
    (a.toBitVec.setWidth 32 <<< k).toNat = 2 ^ k * a.toNat := by
  have ha := toNat_lt a
  have hpow : 2 ^ k ≤ 2 ^ 24 := Nat.pow_le_pow_right (by decide) h
  rw [BitVec.toNat_shiftLeft, BitVec.toNat_setWidth, UInt8.toNat_toBitVec, Nat.shiftLeft_eq,
    Nat.mod_eq_of_lt (show a.toNat < 2 ^ 32 by omega), Nat.mul_comm]
  apply Nat.mod_eq_of_lt
  calc 2 ^ k * a.toNat ≤ 2 ^ 24 * a.toNat := Nat.mul_le_mul_right _ hpow
    _ < 2 ^ 32 := by omega

theorem toNat_word (a b c d : UInt8) : (word a b c d).toNat = unsigned [a, b, c, d] := by
  have ha := toNat_lt a
  have hb := toNat_lt b
  have hc := toNat_lt c
  have hd := toNat_lt d
  have hlast : (d.toBitVec.setWidth 32).toNat = d.toNat := by
    rw [BitVec.toNat_setWidth, UInt8.toNat_toBitVec]
    omega
  rw [word, BitVec.toNat_or, BitVec.toNat_or, BitVec.toNat_or, toNat_shifted a (Nat.le_refl 24),
    toNat_shifted b (by decide), toNat_shifted c (by decide), hlast, Nat.lor_assoc, Nat.lor_assoc,
    ← Nat.two_pow_add_eq_or_of_lt (show d.toNat < 2 ^ 8 by omega),
    ← Nat.two_pow_add_eq_or_of_lt (show 2 ^ 8 * c.toNat + d.toNat < 2 ^ 16 by omega),
    ← Nat.two_pow_add_eq_or_of_lt
      (show 2 ^ 16 * b.toNat + (2 ^ 8 * c.toNat + d.toNat) < 2 ^ 24 by omega)]
  simp only [unsigned, List.length_cons, List.length_nil]
  omega

theorem toInt_word (a b c d : UInt8) : (word a b c d).toInt = signed [a, b, c, d] := by
  have ha : 0x80 ≤ a ↔ 128 ≤ a.toNat := UInt8.le_iff_toNat_le
  have hb := toNat_lt b
  have hc := toNat_lt c
  have hd := toNat_lt d
  have hvalue : unsigned [a, b, c, d] = a.toNat * 2 ^ 24 + b.toNat * 2 ^ 16 + c.toNat * 2 ^ 8 +
      d.toNat := by
    simp only [unsigned, List.length_cons, List.length_nil]
    omega
  rw [BitVec.toInt_eq_toNat_cond, toNat_word, signed, signOf, after, List.headD_cons, hvalue,
    show (256 : Int) ^ [a, b, c, d].length = 2 ^ 32 by simp]
  by_cases h : 0x80 ≤ a
  · have h' := ha.1 h
    rw [if_pos h, if_neg (by omega)]
    omega
  · have h' : ¬128 ≤ a.toNat := fun hle => h (ha.2 hle)
    rw [if_neg h, if_pos (by omega)]
    omega

theorem maskedWord_eq (w : BitVec 32) : maskedWord w = w.toNat := by
  have hlt := w.isLt
  rw [maskedWord, show (0xffffffff : Int) = ((2 ^ 32 - 1 : Nat) : Int) from rfl, land_mask,
    BitVec.toInt_eq_toNat_cond]
  split <;> omega

theorem not_word (a b c d : UInt8) : ~~~word a b c d = word (~~~a) (~~~b) (~~~c) (~~~d) := by
  have hsum := unsigned_complement [a, b, c, d]
  simp only [List.map_cons, List.map_nil, List.length_cons, List.length_nil] at hsum
  apply BitVec.eq_of_toNat_eq
  rw [BitVec.toNat_not, toNat_word, toNat_word]
  omega

/-- A shift to the right that keeps the sign drops the bytes at the end. -/
theorem toInt_sshiftRight_word {a b c d : UInt8} {xs ys : List UInt8} (h : xs ++ ys = [a, b, c, d])
    (hxs : xs ≠ []) {k : Nat} (hk : 8 * ys.length = k) :
    ((word a b c d).sshiftRight k).toInt = signed xs := by
  have hpow : (2 : Int) ^ k = 256 ^ ys.length := by
    rw [← hk, pow_mul]
    rfl
  rw [BitVec.toInt_sshiftRight, toInt_word, ← h, signed_append hxs, Int.shiftRight_eq_div_pow]
  push_cast
  rw [hpow, after_ediv]

theorem unsigned_zero (rest : List UInt8) : unsigned (0 :: rest) = unsigned rest := by
  rw [unsigned, UInt8.toNat_zero, Nat.zero_mul, Nat.zero_add]

theorem signed_zero (rest : List UInt8) : signed (0 :: rest) = unsigned rest := by
  rw [signed_of_lt (show (0 :: rest).headD 0 < (0x80 : UInt8) from (by decide : (0 : UInt8) < 0x80)),
    unsigned_zero]

variable {bytes : List UInt8} {digits : List Nat}

theorem wordAt_eq {i : Nat} (h : i + 4 ≤ bytes.length) :
    ∃ a b c d, wordAt bytes i = word a b c d ∧ (bytes.drop i).take 4 = [a, b, c, d] := by
  refine ⟨bytes.getD i 0, bytes.getD (i + 1) 0, bytes.getD (i + 2) 0, bytes.getD (i + 3) 0, rfl, ?_⟩
  rw [List.getD_eq_getElem _ _ (by omega), List.getD_eq_getElem _ _ (by omega),
    List.getD_eq_getElem _ _ (by omega), List.getD_eq_getElem _ _ (by omega),
    List.drop_eq_getElem_cons (by omega), List.drop_eq_getElem_cons (by omega),
    List.drop_eq_getElem_cons (by omega), List.drop_eq_getElem_cons (by omega)]
  rfl

theorem toInt_wordAt (h : 4 ≤ bytes.length) :
    (wordAt bytes 0).toInt = signed (bytes.take 4) := by
  obtain ⟨a, b, c, d, hword, htake⟩ := wordAt_eq (show 0 + 4 ≤ bytes.length by omega)
  rw [List.drop_zero] at htake
  rw [hword, toInt_word, htake]

theorem maskedWord_wordAt {i : Nat} (h : i + 4 ≤ bytes.length) :
    maskedWord (wordAt bytes i) = unsigned ((bytes.drop i).take 4) := by
  obtain ⟨a, b, c, d, hword, htake⟩ := wordAt_eq h
  rw [hword, maskedWord_eq, toNat_word, htake]

/-- A shift to the right by the bits of the bytes after the first `p` leaves these. -/
theorem signed_take_ediv {n p k : Nat} (hp : 0 < p) (hpn : p ≤ n)
    (hn : n ≤ bytes.length) (hk : 8 * (n - p) = k) :
    signed (bytes.take n) / 2 ^ k = after (signOf bytes) (bytes.take p) := by
  have hne : bytes.take p ≠ [] := by
    intro h
    rcases List.take_eq_nil_iff.1 h with h | h
    · omega
    · rw [h] at hn
      exact absurd hn (by simp; omega)
  have hsplit : bytes.take n = bytes.take p ++ (bytes.take n).drop p := by
    conv_lhs => rw [← List.take_append_drop p (bytes.take n), List.take_take, Nat.min_eq_left hpn]
  have hlength : ((bytes.take n).drop p).length = n - p := by
    rw [List.length_drop, List.length_take, Nat.min_eq_left hn]
  have hpow : (2 : Int) ^ k = 256 ^ ((bytes.take n).drop p).length := by
    rw [hlength, ← hk, pow_mul]
    rfl
  have hsign : signOf (bytes.take p) = signOf bytes := by
    conv_rhs => rw [← List.take_append_drop p bytes]
    exact (signOf_append hne _).symm
  rw [hpow, hsplit, signed_append hne, ← hsplit, after_ediv, signed, hsign]

theorem and_high (a : UInt8) : a &&& 0x80 ≠ 0 ↔ 0x80 ≤ a := by
  obtain ⟨x⟩ := a
  revert x
  decide +kernel

/-- What the bytes ahead of the groups are worth. -/
theorem leading_eq (h : 8 < bytes.length) :
    leading bytes = after (signOf bytes) (bytes.take (bytes.length % 8)) := by
  have hlt := Nat.mod_lt bytes.length (show 8 > 0 by decide)
  rw [leading]
  by_cases hzero : bytes.length % 8 = 0
  · rw [if_pos hzero, hzero, List.take_zero, after_nil, signOf]
    simp only [and_high]
  · rw [if_neg hzero]
    by_cases hfour : bytes.length % 8 ≤ 4
    · rw [if_pos hfour, toInt_wordAt (by omega)]
      exact signed_take_ediv (by omega) hfour (by omega) (by omega)
    · have hne : bytes.take 4 ≠ [] := by
        intro hnil
        rcases List.take_eq_nil_iff.1 hnil with h' | h'
        · cases h'
        · rw [h'] at h
          cases h
      have hsplit : bytes.take 8 = bytes.take 4 ++ (bytes.drop 4).take 4 := List.take_add (i := 4) (j := 4)
      rw [if_neg hfour, toInt_wordAt (by omega), maskedWord_wordAt (by omega),
        lor_unsigned _ _ (by rw [List.length_take, List.length_drop]; omega),
        ← signed_append hne, ← hsplit]
      exact signed_take_ediv (by omega) (by omega) (by omega) (by omega)

/-- The words of a group, set below a number, are its bytes after the number. -/
theorem lor_words (result : Int) (a b c d e f g h : UInt8) :
    Int.lor (Int.lor (result * 2 ^ 64) (maskedWord (word a b c d) * 2 ^ 32))
      (maskedWord (word e f g h)) = after result [a, b, c, d, e, f, g, h] := by
  have hhigh : result * 2 ^ 64 = result * 2 ^ 32 * 2 ^ 32 := by ring
  have hlor : Int.lor (result * 2 ^ 64) (maskedWord (word a b c d) * 2 ^ 32) =
      after result [a, b, c, d] * 2 ^ 32 := by
    have hlt := unsigned_lt [a, b, c, d]
    have hnat : (unsigned [a, b, c, d] : Int) * 2 ^ 32 =
        ((unsigned [a, b, c, d] * 2 ^ 32 : Nat) : Int) := by
      push_cast
      rfl
    have hsmall : unsigned [a, b, c, d] * 2 ^ 32 < 2 ^ 64 := by
      simp only [List.length_cons, List.length_nil] at hlt
      omega
    rw [maskedWord_eq, toNat_word, hnat, lor_shifted result hsmall, after]
    push_cast
    simp only [List.length_cons, List.length_nil]
    ring
  rw [hlor, maskedWord_eq, toNat_word, lor_unsigned _ [e, f, g, h] (k := 32) rfl, ← after_append]
  rfl

theorem addGroups_eq (result : Int) (hlength : bytes.length % 8 = 0) :
    addGroups id result bytes = after result bytes := by
  fun_induction addGroups id result bytes with
  | case1 result a b c d e f g h rest _ _ ih =>
    simp only [List.length_cons] at hlength
    rw [ih (by omega)]
    show after (Int.lor (Int.lor (result * 2 ^ 64) (maskedWord (word a b c d) * 2 ^ 32))
      (maskedWord (word e f g h))) rest = _
    rw [lor_words, ← after_append]
    rfl
  | case2 bytes result hshort =>
    rcases bytes with _ | ⟨a, _ | ⟨b, _ | ⟨c, _ | ⟨d, _ | ⟨e, _ | ⟨f, _ | ⟨g, _ | ⟨h, rest⟩⟩⟩⟩⟩⟩⟩⟩
    · exact (after_nil result).symm
    all_goals first | exact (hshort a b c d e f g h rest rfl).elim | cases hlength

theorem addGroups_not (result : Int) (bytes : List UInt8) :
    addGroups (~~~·) result bytes = addGroups id result (bytes.map (~~~·)) := by
  fun_induction addGroups (~~~·) result bytes with
  | case1 result a b c d e f g h rest _ _ ih =>
    rw [ih]
    simp only [List.map_cons, addGroups, id, ← not_word]
    rfl
  | case2 bytes result hshort =>
    rcases bytes with _ | ⟨a, _ | ⟨b, _ | ⟨c, _ | ⟨d, _ | ⟨e, _ | ⟨f, _ | ⟨g, _ | ⟨h, rest⟩⟩⟩⟩⟩⟩⟩⟩
    all_goals first | exact (hshort a b c d e f g h rest rfl).elim | rfl

theorem decodeLong_eq (h : 8 < bytes.length) :
    decodeLong bytes = signed bytes := by
  have hgroups : (bytes.drop (bytes.length % 8)).length % 8 = 0 := by
    rw [List.length_drop]
    omega
  have hsplit : after (leading bytes) (bytes.drop (bytes.length % 8)) = signed bytes := by
    rw [leading_eq h, ← after_append, List.take_append_drop, signed]
  rw [decodeLong]
  split
  · rw [addGroups_eq _ hgroups, hsplit]
  · have hnot : ((bytes.drop (bytes.length % 8)).map (~~~·)).length % 8 = 0 := by
      rw [List.length_map, hgroups]
    rw [addGroups_not, addGroups_eq _ hnot, after_complement, hsplit]
    ring

/-- What the one decoder reads of any bytes. -/
theorem bigintFromMtcDirect_eq (h : bytes ≠ []) :
    bigintFromMtcDirect bytes = some (signed bytes) := by
  have hlow : ∀ {high : List UInt8} (low : List UInt8) {w : Int} {k : Nat}, high ≠ [] →
      w = unsigned low → 8 * low.length = k →
      some (Int.lor (signed high * 2 ^ k) w) = some (signed (high ++ low)) := by
    intro high low w k hne hw hk
    rw [hw, lor_unsigned _ _ hk, signed_append hne]
  rcases bytes with _ | ⟨a, _ | ⟨b, _ | ⟨c, _ | ⟨d, _ | ⟨e, _ | ⟨f, _ | ⟨g, _ | ⟨i, _ | ⟨j, rest⟩⟩⟩⟩⟩⟩⟩⟩⟩
  · exact absurd rfl h
  · exact congrArg some (toInt_sshiftRight_word (show [a] ++ [0, 0, 0] = [a, 0, 0, 0] from rfl)
      (List.cons_ne_nil _ _) rfl)
  · exact congrArg some (toInt_sshiftRight_word (show [a, b] ++ [0, 0] = [a, b, 0, 0] from rfl)
      (List.cons_ne_nil _ _) rfl)
  · exact congrArg some (toInt_sshiftRight_word (show [a, b, c] ++ [0] = [a, b, c, 0] from rfl)
      (List.cons_ne_nil _ _) rfl)
  · exact congrArg some (toInt_word a b c d)
  · rw [bigintFromMtcDirect, toInt_word, toInt_word, signed_zero, unsigned_zero, unsigned_zero]
    exact hlow [e] (List.cons_ne_nil _ _) rfl rfl
  · rw [bigintFromMtcDirect, toInt_word, toInt_word, signed_zero, unsigned_zero]
    exact hlow [e, f] (List.cons_ne_nil _ _) rfl rfl
  · rw [bigintFromMtcDirect, toInt_word, toInt_word, signed_zero]
    exact hlow [e, f, g] (List.cons_ne_nil _ _) rfl rfl
  · rw [bigintFromMtcDirect, toInt_word, maskedWord_eq, toNat_word]
    exact hlow [e, f, g, i] (List.cons_ne_nil _ _) rfl rfl
  · exact congrArg some (decodeLong_eq (by simp))

theorem hexValue_hexDigit {d : Nat} (h : d < 16) : hexValue? (hexDigit d) = some d := by
  rw [hexValue?, hexDigit]
  by_cases hd : d < 10
  · rw [if_pos hd, if_pos (by omega)]
    congr 1
    omega
  · rw [if_neg hd, if_neg (by omega), if_pos (by omega)]
    congr 1
    omega

theorem readHex_toHex (value : Nat) (bytes : List UInt8) :
    readHex value (toHex bytes) = some (value * 256 ^ bytes.length + unsigned bytes) := by
  induction bytes generalizing value with
  | nil => simp [toHex, readHex, unsigned]
  | cons a rest ih =>
    have ha := toNat_lt a
    have hcons : toHex (a :: rest) =
        hexDigit (a.toNat / 16) :: hexDigit (a.toNat % 16) :: toHex rest := rfl
    rw [hcons, readHex, hexValue_hexDigit (by omega), Option.bind_some, readHex,
      hexValue_hexDigit (by omega), Option.bind_some, ih, unsigned, List.length_cons, pow_succ]
    congr 1
    have hdigits : 16 * (16 * value + a.toNat / 16) + a.toNat % 16 = 256 * value + a.toNat := by
      omega
    rw [hdigits]
    ring

/-- What the other decoder reads of any bytes. -/
theorem bigintFromMtcHex_eq (h : bytes ≠ []) :
    bigintFromMtcHex bytes = some (signed bytes) := by
  rw [bigintFromMtcHex]
  split
  · exact bigintFromMtcDirect_eq h
  · have hne : toHex bytes ≠ [] := by
      cases bytes with
      | nil => exact absurd rfl h
      | cons a rest => exact List.cons_ne_nil _ _
    rw [bigintOfHex, if_neg hne, readHex_toHex, Nat.zero_mul, Nat.zero_add, Option.map_some]
    congr 1
    split
    case isTrue hlow =>
      exact (signed_of_lt (UInt8.lt_iff_toNat_lt.2 (Nat.lt_succ_of_le hlow))).symm
    case isFalse hhigh =>
      have hhigh : 0x80 ≤ bytes.headD 0 :=
        UInt8.le_iff_toNat_le.2 (UInt8.lt_iff_toNat_lt.1 (UInt8.not_le.1 hhigh))
      rw [lor_comm, lor_unsigned _ _ (Nat.mul_comm _ _), signed, signOf, if_pos hhigh]

/-- Both decoders read the same of all bytes, and throw on none alike. -/
theorem decoders_agree (bytes : List UInt8) :
    bigintFromMtcHex bytes = bigintFromMtcDirect bytes := by
  cases bytes with
  | nil => rfl
  | cons a rest =>
    rw [bigintFromMtcHex_eq (List.cons_ne_nil _ _), bigintFromMtcDirect_eq (List.cons_ne_nil _ _)]

theorem int64Bytes_eq (v : Int) : int64Bytes v = bytesOf 8 v := by
  simp [int64Bytes, bytesOf, Int.ediv_ediv_of_nonneg]

theorem encodeNumber_eq (num : Int) : ∃ n, encodeNumber num = bytesOf (n + 1) num ∧
    (Fits 4 num → Fits (n + 1) num) ∧ (n = 0 ∨ ¬Fits n num) := by
  have hbytes : bytesOf 4 num =
      [byteOf (num / 2 ^ 24), byteOf (num / 2 ^ 16), byteOf (num / 2 ^ 8), byteOf num] := by
    simp [bytesOf, Int.ediv_ediv_of_nonneg]
  have hthree : bytesOf 3 num = [byteOf (num / 2 ^ 16), byteOf (num / 2 ^ 8), byteOf num] := by
    simp [bytesOf, Int.ediv_ediv_of_nonneg]
  rw [encodeNumber]
  simp only [Fits]
  split_ifs
  · exact ⟨0, rfl, by omega, Or.inl rfl⟩
  · exact ⟨1, rfl, by omega, by omega⟩
  · exact ⟨2, hthree.symm, by omega, by omega⟩
  · exact ⟨3, hbytes.symm, by omega, by omega⟩
  · exact ⟨0, rfl, by omega, Or.inl rfl⟩
  · exact ⟨1, rfl, by omega, by omega⟩
  · exact ⟨2, hthree.symm, by omega, by omega⟩
  · exact ⟨3, hbytes.symm, by omega, by omega⟩

theorem encodeNumber_form {num : Int} (h : Fits 4 num) :
    signed (encodeNumber num) = num ∧ Minimal (encodeNumber num) := by
  obtain ⟨n, hbytes, hfits, hn⟩ := encodeNumber_eq num
  rw [hbytes]
  exact ⟨signed_bytesOf (hfits h), minimal_bytesOf (hfits h) hn⟩

/-- A byte that only repeats the sign, and what its sign bit is. -/
def Skipped (skipByte signBit : UInt8) : Prop :=
  (skipByte = 0 ∧ signBit = 0) ∨ (skipByte = 0xff ∧ signBit = 0x80)

/-- The bit of a byte is that of the sign, or the byte before has to stay. -/
theorem skipped_cases {skipByte signBit byte : UInt8} (h : Skipped skipByte signBit) :
    (byte &&& 0x80 = signBit → (skipByte = 0 ∧ byte < 0x80) ∨ (skipByte = 0xff ∧ 0x80 ≤ byte)) ∧
    (byte &&& 0x80 ≠ signBit → (skipByte = 0 ∧ 0x80 ≤ byte) ∨ (skipByte = 0xff ∧ byte < 0x80)) := by
  have hbit : ∀ x : BitVec 8, (x &&& 0x80 = 0 ↔ x < 0x80) ∧ (x &&& 0x80 = 0x80 ↔ 0x80 ≤ x) := by
    decide +kernel
  have hzero : byte &&& 0x80 = 0 ↔ byte < 0x80 :=
    (UInt8.toBitVec_inj).symm.trans ((hbit byte.toBitVec).1.trans UInt8.lt_iff_toBitVec_lt.symm)
  have hones : byte &&& 0x80 = 0x80 ↔ 0x80 ≤ byte :=
    (UInt8.toBitVec_inj).symm.trans ((hbit byte.toBitVec).2.trans UInt8.le_iff_toBitVec_le.symm)
  rcases h with ⟨rfl, rfl⟩ | ⟨rfl, rfl⟩
  · exact ⟨fun h => Or.inl ⟨rfl, hzero.1 h⟩,
      fun h => Or.inl ⟨rfl, UInt8.not_lt.1 fun hlt => h (hzero.2 hlt)⟩⟩
  · exact ⟨fun h => Or.inr ⟨rfl, hones.1 h⟩,
      fun h => Or.inr ⟨rfl, UInt8.not_le.1 fun hle => h (hones.2 hle)⟩⟩

/-- Bytes that start with the sign but not with the byte that repeats it are minimal. -/
theorem minimal_of_ne {skipByte byte : UInt8} {rest : List UInt8} (hne : byte ≠ skipByte)
    (h : (skipByte = 0 ∧ byte < 0x80) ∨ (skipByte = 0xff ∧ 0x80 ≤ byte)) :
    Minimal (byte :: rest) := by
  cases rest with
  | nil => exact trivial
  | cons c rest =>
    constructor
    · rintro ⟨rfl, -⟩
      rcases h with ⟨rfl, -⟩ | ⟨-, h⟩
      · exact hne rfl
      · exact absurd h (by decide)
    · rintro ⟨rfl, -⟩
      rcases h with ⟨-, h⟩ | ⟨rfl, -⟩
      · exact absurd h (by decide)
      · exact hne rfl

/-- The loop keeps the value and stops at minimal bytes, unless there is nothing but the sign. -/
theorem skipBytes_form {skipByte signBit : UInt8} (h : Skipped skipByte signBit)
    (bytes : List UInt8) (hzero : signed (skipByte :: bytes) ≠ 0)
    (hones : signed (skipByte :: bytes) ≠ -1) :
    signed (skipBytes skipByte signBit (skipByte :: bytes) bytes) = signed (skipByte :: bytes) ∧
      Minimal (skipBytes skipByte signBit (skipByte :: bytes) bytes) := by
  induction bytes with
  | nil =>
    exfalso
    rcases h with ⟨rfl, -⟩ | ⟨rfl, -⟩
    · exact hzero rfl
    · exact hones rfl
  | cons byte rest ih =>
    rw [skipBytes]
    by_cases hskip : byte = skipByte
    · rw [if_neg (not_not.2 hskip), hskip]
      have hsign : signed (skipByte :: skipByte :: rest) = signed (skipByte :: rest) := by
        apply signed_cons_sign
        rcases h with ⟨rfl, -⟩ | ⟨rfl, -⟩
        · exact Or.inl ⟨rfl, by decide⟩
        · exact Or.inr ⟨rfl, by decide⟩
      rw [hskip, hsign] at hzero hones
      rw [hsign]
      exact ih hzero hones
    · rw [if_pos hskip]
      split
      case isTrue hbit =>
        have hsame := (skipped_cases h).1 hbit
        exact ⟨(signed_cons_sign hsame).symm, minimal_of_ne hskip hsame⟩
      case isFalse hbit =>
        refine ⟨rfl, ?_, ?_⟩
        · rintro ⟨rfl, hlt⟩
          rcases (skipped_cases h).2 hbit with ⟨-, hle⟩ | ⟨hff, -⟩
          · exact UInt8.not_le.2 hlt hle
          · exact absurd hff (by decide)
        · rintro ⟨rfl, hle⟩
          rcases (skipped_cases h).2 hbit with ⟨hff, -⟩ | ⟨-, hlt⟩
          · exact absurd hff (by decide)
          · exact UInt8.not_le.2 hlt hle

theorem encode5To8Bytes_form {value : Int} {negative : Bool} (hfits : Fits 8 value)
    (hlong : ¬Fits 4 value) (h : negative = true ↔ value < 0) :
    signed (encode5To8Bytes value negative) = value ∧ Minimal (encode5To8Bytes value negative) := by
  obtain ⟨skipByte, signBit, hskip, hsigns, heq⟩ : ∃ skipByte signBit, Skipped skipByte signBit ∧
      (signBit = 0x80 ↔ value < 0) ∧ encode5To8Bytes value negative =
        skipBytes skipByte signBit [byteOf value] (int64Bytes value) := by
    cases negative
    · exact ⟨0, 0, Or.inl ⟨rfl, rfl⟩, by simpa using h, rfl⟩
    · exact ⟨0xff, 0x80, Or.inr ⟨rfl, rfl⟩, by simpa using h, rfl⟩
  have hvalue := signed_bytesOf hfits
  have hlength := length_bytesOf 8 value
  have hrange : value ≠ 0 ∧ value ≠ -1 := by
    constructor <;> (rintro rfl; exact hlong (by rw [Fits]; omega))
  rw [heq, int64Bytes_eq]
  cases hbytes : bytesOf 8 value with
  | nil => rw [hbytes] at hlength; cases hlength
  | cons a rest =>
    rw [hbytes] at hvalue
    rw [skipBytes]
    by_cases ha : a = skipByte
    · rw [if_neg (not_not.2 ha), ha]
      rw [ha] at hvalue
      have hform := skipBytes_form hskip rest (by rw [hvalue]; exact hrange.1)
        (by rw [hvalue]; exact hrange.2)
      rw [hvalue] at hform
      exact hform
    · have hsign : a &&& 0x80 = signBit := by
        by_contra hne
        have hneg := signed_neg_iff a rest
        rw [hvalue, ← hsigns] at hneg
        rcases hskip with ⟨rfl, rfl⟩ | ⟨rfl, rfl⟩
        · rcases (skipped_cases (Or.inl ⟨rfl, rfl⟩)).2 hne with ⟨-, hle⟩ | ⟨hff, -⟩
          · exact absurd (hneg.2 hle) (by decide)
          · exact absurd hff (by decide)
        · rcases (skipped_cases (Or.inr ⟨rfl, rfl⟩)).2 hne with ⟨hff, -⟩ | ⟨-, hlt⟩
          · exact absurd hff (by decide)
          · exact UInt8.not_le.2 hlt (hneg.1 rfl)
      rw [if_pos ha, if_pos hsign]
      exact ⟨hvalue, minimal_of_ne ha ((skipped_cases hskip).1 hsign)⟩

/-- The bytes of pairs of hexadecimal digits. -/
def pairs : List Nat → List UInt8
  | a :: b :: rest => UInt8.ofNat (16 * a + b) :: pairs rest
  | _ => []

/-- Digits of whole bytes. -/
inductive Paired : List Nat → Prop
  | nil : Paired []
  | cons {a b : Nat} {rest : List Nat} (ha : a < 16) (hb : b < 16) (h : Paired rest) :
    Paired (a :: b :: rest)

theorem paired_of_even (h : ∀ d ∈ digits, d < 16)
    (heven : digits.length % 2 = 0) : Paired digits := by
  fun_induction pairs digits with
  | case1 a b rest ih =>
    simp only [List.length_cons] at heven
    exact .cons (h a List.mem_cons_self) (h b (List.mem_cons_of_mem _ List.mem_cons_self))
      (ih (fun d hd => h d (List.mem_cons_of_mem _ (List.mem_cons_of_mem _ hd))) (by omega))
  | case2 digits hshort =>
    rcases digits with _ | ⟨a, _ | ⟨b, rest⟩⟩
    · exact .nil
    · cases heven
    · exact (hshort a b rest rfl).elim

theorem fromHex_pairs (h : Paired digits) :
    fromHex (digits.map hexDigit) = some (pairs digits) := by
  induction h with
  | nil => rfl
  | cons ha hb _ ih =>
    rw [List.map_cons, List.map_cons, fromHex, hexValue_hexDigit ha, hexValue_hexDigit hb, ih]
    rfl

theorem nibbleValueAt_hexDigit {i d : Nat} (h : digits[i]? = some d)
    (hd : d < 16) : nibbleValueAt (digits.map hexDigit) i = d := by
  rw [nibbleValueAt, List.getD_eq_getElem?_getD, List.getElem?_map, h, Option.map_some,
    Option.getD_some, hexDigit]
  by_cases hten : d < 10
  · rw [if_pos hten, if_pos (by omega)]
    omega
  · rw [if_neg hten, if_neg (by omega)]
    omega

theorem toNat_pair {a b : Nat} (ha : a < 16) (hb : b < 16) :
    (UInt8.ofNat (16 * a + b)).toNat = 16 * a + b := by
  rw [UInt8.toNat_ofNat']
  omega

theorem byteValueAt_cons {a b : Nat} (rest : List Nat) (i : Nat) :
    byteValueAt (a :: b :: rest) ((i + 1) * 2) = byteValueAt rest (i * 2) := by
  rw [Nat.add_mul, Nat.one_mul]
  rfl

/-- The bytes of the digits one by one, whatever is made of each. -/
theorem map_byteValueAt (h : Paired digits) (f : Nat → UInt8) :
    (List.range (digits.length / 2)).map (fun i => f (byteValueAt (digits.map hexDigit) (i * 2))) =
      (pairs digits).map fun a => f a.toNat := by
  induction h with
  | nil => rfl
  | @cons a b rest ha hb _ ih =>
    have hhalf : (a :: b :: rest).length / 2 = rest.length / 2 + 1 := by
      simp only [List.length_cons]
      omega
    have hfirst : byteValueAt ((a :: b :: rest).map hexDigit) (0 * 2) = 16 * a + b := by
      rw [byteValueAt, nibbleValueAt_hexDigit (i := 0 * 2) rfl ha,
        nibbleValueAt_hexDigit (i := 0 * 2 + 1) rfl hb, Nat.shiftLeft_eq, Nat.mul_comm,
        ← Nat.two_pow_add_eq_or_of_lt (show b < 2 ^ 4 from hb)]
    have hrest : (pairs (a :: b :: rest)).map (fun a => f a.toNat) =
        f (16 * a + b) :: (pairs rest).map fun a => f a.toNat := by
      rw [pairs, List.map_cons, toNat_pair ha hb]
    rw [hrest, ← ih, hhalf, List.range_succ_eq_map, List.map_cons, List.map_map, hfirst]
    congr 1
    apply List.map_congr_left
    intro i _
    exact congrArg f (byteValueAt_cons _ i)

/-- The bytes have the number that the digits are read to. -/
theorem unsigned_pairs (h : Paired digits) :
    2 * (pairs digits).length = digits.length ∧
      unsigned (pairs digits) = Nat.ofDigits 16 digits.reverse := by
  induction h with
  | nil => exact ⟨rfl, rfl⟩
  | @cons a b rest ha hb _ ih =>
    have hpow : 256 ^ (pairs rest).length = 16 ^ rest.length := by
      rw [← ih.1, Nat.pow_mul]
    constructor
    · rw [pairs, List.length_cons, List.length_cons, List.length_cons, ← ih.1]
      omega
    · rw [pairs, unsigned, toNat_pair ha hb, hpow, ih.2, List.reverse_cons, List.reverse_cons,
        List.append_assoc, Nat.ofDigits_append, List.length_reverse, List.singleton_append,
        Nat.ofDigits_cons, Nat.ofDigits_singleton]
      ring

theorem signed_pairs (h : Paired digits) (hlow : (pairs digits).headD 0 < 0x80) :
    signed (pairs digits) = (Nat.ofDigits 16 digits.reverse : Nat) := by
  rw [signed_of_lt hlow, (unsigned_pairs h).2]

theorem pair_lt {a b : Nat} (ha : a < 8) (hb : b < 16) : UInt8.ofNat (16 * a + b) < 0x80 := by
  rw [UInt8.lt_iff_toNat_lt, toNat_pair (by omega) hb]
  change 16 * a + b < 128
  omega

theorem le_pair {a b : Nat} (ha : 8 ≤ a) (ha' : a < 16) (hb : b < 16) :
    0x80 ≤ UInt8.ofNat (16 * a + b) := by
  rw [UInt8.le_iff_toNat_le, toNat_pair ha' hb]
  change 128 ≤ 16 * a + b
  omega

theorem pair_ne_zero {a b : Nat} (ha : a < 16) (hb : b < 16) (h : 0 < 16 * a + b) :
    UInt8.ofNat (16 * a + b) ≠ 0 := by
  intro hzero
  have hvalue := toNat_pair ha hb
  rw [hzero, UInt8.toNat_zero] at hvalue
  omega

/-- The text of a value above zero: its digits make up bytes that are minimal and below the sign. -/
theorem hexStringFromPositiveValue_form {value : Nat} (h : 0 < value) :
    ∃ digits, hexStringFromPositiveValue value = digits.map hexDigit ∧ Paired digits ∧
      signed (pairs digits) = value ∧ Minimal (pairs digits) := by
  have hread : Nat.ofDigits 16 (Nat.digits 16 value).reverse.reverse = value := by
    rw [List.reverse_reverse, Nat.ofDigits_digits]
  have hsmall : ∀ d ∈ (Nat.digits 16 value).reverse, d < 16 :=
    fun d hd => Nat.digits_lt_base (by decide) (List.mem_reverse.1 hd)
  have hdigits : Nat.digits 16 value ≠ [] := Nat.digits_ne_nil_iff_ne_zero.2 h.ne'
  have hlast := Nat.getLast_digit_ne_zero 16 h.ne'
  rw [hexStringFromPositiveValue, hexText, if_neg h.ne']
  cases hreverse : (Nat.digits 16 value).reverse with
  | nil => exact absurd (List.reverse_eq_nil_iff.1 hreverse) hdigits
  | cons d rest =>
    rw [hreverse] at hread hsmall
    have hd := hsmall d List.mem_cons_self
    have hne : d ≠ 0 := by
      rw [← List.head_reverse (by rw [hreverse]; exact List.cons_ne_nil _ _)] at hlast
      simpa [hreverse] using hlast
    -- zeros before the digits leave what is read of them
    have hzero : ∀ {digits : List Nat}, Nat.ofDigits 16 digits.reverse = value →
        Nat.ofDigits 16 (0 :: digits).reverse = value := by
      intro digits hread
      rw [List.reverse_cons, Nat.ofDigits_append, hread, Nat.ofDigits_singleton, Nat.mul_zero,
        Nat.add_zero]
    simp only [List.length_map]
    split
    case isTrue hodd =>
      have hpaired : Paired (0 :: d :: rest) := by
        apply paired_of_even
        · intro x hx
          rcases List.mem_cons.1 hx with rfl | hx
          · decide
          · exact hsmall x hx
        · rw [List.length_cons]
          omega
      have hlow : UInt8.ofNat (16 * 0 + d) < 0x80 := pair_lt (by decide) hd
      refine ⟨0 :: d :: rest, rfl, hpaired, ?_, ?_⟩
      · rw [signed_pairs hpaired hlow, hzero hread]
      · exact minimal_of_ne (pair_ne_zero (by decide) hd (by omega)) (Or.inl ⟨rfl, hlow⟩)
    case isFalse hodd =>
      rw [nibbleValueAt_hexDigit (i := 0) rfl hd]
      have hpaired := paired_of_even hsmall (by omega)
      cases rest with
      | nil => exact absurd rfl hodd
      | cons e rest =>
        have he := hsmall e (List.mem_cons_of_mem _ List.mem_cons_self)
        split
        case isTrue hhigh =>
          have hpaired' : Paired (0 :: 0 :: d :: e :: rest) := .cons (by decide) (by decide) hpaired
          refine ⟨0 :: 0 :: d :: e :: rest, rfl, hpaired', ?_, ?_⟩
          · rw [signed_pairs hpaired' (by decide : (0 : UInt8) < 0x80), hzero (hzero hread)]
          · constructor
            · rintro ⟨-, hlt⟩
              exact UInt8.not_le.2 hlt (le_pair hhigh hd he)
            · rintro ⟨hff, -⟩
              exact absurd hff (by decide)
        case isFalse hhigh =>
          have hlow : UInt8.ofNat (16 * d + e) < 0x80 := pair_lt (Nat.lt_of_not_le hhigh) he
          refine ⟨d :: e :: rest, rfl, hpaired, ?_, ?_⟩
          · rw [signed_pairs hpaired hlow, hread]
          · exact minimal_of_ne (pair_ne_zero hd he (by omega)) (Or.inl ⟨rfl, hlow⟩)

theorem bytes_of_word (a b c d : BitVec 8) : (d ++ c ++ b ++ a).extractLsb' 0 8 = a ∧
    (d ++ c ++ b ++ a).extractLsb' 8 8 = b ∧ (d ++ c ++ b ++ a).extractLsb' 16 8 = c ∧
    (d ++ c ++ b ++ a).extractLsb' 24 8 = d := by
  refine ⟨?_, ?_, ?_, ?_⟩
  · exact BitVec.extractLsb'_append_eq_right
  · rw [BitVec.extractLsb'_append_eq_of_le (by decide)]
    exact BitVec.extractLsb'_append_eq_right
  · rw [BitVec.extractLsb'_append_eq_of_le (by decide),
      BitVec.extractLsb'_append_eq_of_le (by decide)]
    exact BitVec.extractLsb'_append_eq_right
  · rw [BitVec.extractLsb'_append_eq_of_le (by decide),
      BitVec.extractLsb'_append_eq_of_le (by decide)]
    exact BitVec.extractLsb'_append_eq_left

theorem complementWords_eq (bytes : List UInt8) : complementWords bytes = bytes.map (~~~·) := by
  fun_induction complementWords bytes with
  | case1 a b c d rest word ih =>
    obtain ⟨ha, hb, hc, hd⟩ :=
      bytes_of_word (~~~a.toBitVec) (~~~b.toBitVec) (~~~c.toBitVec) (~~~d.toBitVec)
    rw [← BitVec.not_append, ← BitVec.not_append, ← BitVec.not_append] at ha hb hc hd
    rw [ih]
    simp only [word, ha, hb, hc, hd, List.map_cons]
    rfl
  | case2 rest hshort => rfl

theorem map_ofNat_toNat (bytes : List UInt8) :
    bytes.map (fun a => UInt8.ofNat a.toNat) = bytes :=
  List.map_id'' (fun _ => UInt8.ofNat_toNat) bytes

theorem map_xor_toNat (bytes : List UInt8) :
    bytes.map (fun a => UInt8.ofNat (0xff ^^^ a.toNat)) = bytes.map (~~~·) := by
  apply List.map_congr_left
  intro a _
  rw [UInt8.ofNat_xor, UInt8.ofNat_toNat]
  exact UInt8.neg_one_xor

theorem bigintToMtcDirect_form (value : Int) :
    signed (bigintToMtcDirect value) = value ∧ Minimal (bigintToMtcDirect value) := by
  rw [bigintToMtcDirect]
  split_ifs with hsign hfour height hfour height
  · exact encodeNumber_form (by rw [Fits]; omega)
  · exact encode5To8Bytes_form (by rw [Fits]; omega) (by rw [Fits]; omega)
      (by simp; omega)
  · obtain ⟨digits, htext, hpaired, hvalue, hminimal⟩ :=
      hexStringFromPositiveValue_form (show 0 < value.toNat by omega)
    simp only [htext, List.length_map]
    rw [map_byteValueAt hpaired, map_ofNat_toNat]
    exact ⟨hvalue.trans (by omega), hminimal⟩
  · exact encodeNumber_form (by rw [Fits]; omega)
  · exact encode5To8Bytes_form (by rw [Fits]; omega) (by rw [Fits]; omega)
      (by simp; omega)
  · obtain ⟨digits, htext, hpaired, hvalue, hminimal⟩ :=
      hexStringFromPositiveValue_form (show 0 < (-value - 1).toNat by omega)
    have hne : pairs digits ≠ [] := by
      intro hnil
      rw [hnil] at hminimal
      exact hminimal
    simp only [htext, List.length_map]
    rw [map_byteValueAt hpaired fun n => UInt8.ofNat (0xff ^^^ n), map_xor_toNat,
      signed_complement hne, hvalue]
    exact ⟨by omega, minimal_complement hminimal⟩

theorem encoders_agree (value : Int) :
    bigintToMtcHex value = some (bigintToMtcDirect value) := by
  rw [bigintToMtcHex, bigintToMtcDirect]
  split_ifs with hsign hfour height hfour height
  · rfl
  · rfl
  · obtain ⟨digits, htext, hpaired, -, -⟩ :=
      hexStringFromPositiveValue_form (show 0 < value.toNat by omega)
    simp only [htext, List.length_map]
    rw [fromHex_pairs hpaired, map_byteValueAt hpaired, map_ofNat_toNat]
  · rfl
  · rfl
  · obtain ⟨digits, htext, hpaired, -, -⟩ :=
      hexStringFromPositiveValue_form (show 0 < (-value - 1).toNat by omega)
    simp only [htext, List.length_map]
    rw [fromHex_pairs hpaired, map_byteValueAt hpaired fun n => UInt8.ofNat (0xff ^^^ n),
      map_xor_toNat, Option.map_some, complementWords_eq, ite_self]

/-- Both encoders write the one shortest two's complement of every value, which both decoders read
back, and the decoders read the same of all bytes: their two's complement, or nothing of none. -/
theorem codecs_agree :
    (∀ value : Int, bigintToMtcHex value = some (bigintToMtcDirect value) ∧
      Shortest value (bigintToMtcDirect value) ∧
      bigintFromMtcDirect (bigintToMtcDirect value) = some value ∧
      bigintFromMtcHex (bigintToMtcDirect value) = some value) ∧
    ∀ bytes : List UInt8, bigintFromMtcHex bytes = bigintFromMtcDirect bytes ∧
      bigintFromMtcDirect bytes = if bytes = [] then none else some (signed bytes) := by
  constructor
  · intro value
    obtain ⟨hvalue, hminimal⟩ := bigintToMtcDirect_form value
    have hshortest := shortest_of_minimal hminimal
    have hdecode := bigintFromMtcDirect_eq hshortest.1
    rw [hvalue] at hshortest hdecode
    exact ⟨encoders_agree value, hshortest, hdecode, (decoders_agree _).trans hdecode⟩
  · intro bytes
    refine ⟨decoders_agree bytes, ?_⟩
    split
    case isTrue h =>
      rw [h]
      rfl
    case isFalse h => exact bigintFromMtcDirect_eq h

example : bigintToMtcDirect (-0x8000000000000001) =
    [0xff, 0x7f, 0xff, 0xff, 0xff, 0xff, 0xff, 0xff, 0xff] := by decide +kernel

end BigintBytes
