import Mathlib.Data.List.DropRight
import Mathlib.Data.List.Basic
import Mathlib.Data.List.Induction
import CommonFabric.JsValue

/-!
# Base64url

Bytes in characters of six bits. The encoder and the decoder take the platform's conversion where
there is one, and a polyfill where there is none. The decoder accepts one unpadded text for each
sequence of bytes, and that text with its padding.
-/

namespace Base64url

def b64Chars : List UInt16 :=
  JsString.units "ABCDEFGHIJKLMNOPQRSTUVWXYZabcdefghijklmnopqrstuvwxyz0123456789-_"

def b64Invalid : Nat := 0xFF

def b64PaddingChar : UInt16 := 0x3D

def b64Char (index : Nat) : UInt16 := b64Chars.getD index 0

/-- `B64_DECODE[charCode]`, an array of 128. -/
def b64Decode (charCode : UInt16) : Option Nat :=
  if charCode.toNat < 128 then some ((b64Chars.idxOf? charCode).getD b64Invalid) else none

def toBase64Polyfill : List UInt8 → List UInt16
  | a :: b :: c :: rest =>
    let n := a.toNat <<< 16 ||| b.toNat <<< 8 ||| c.toNat
    b64Char (n >>> 18 &&& 0x3F) :: b64Char (n >>> 12 &&& 0x3F) :: b64Char (n >>> 6 &&& 0x3F) ::
      b64Char (n &&& 0x3F) :: toBase64Polyfill rest
  | [n1, n2] =>
    [b64Char (n1.toNat >>> 2 &&& 0x3F),
      b64Char ((n1.toNat &&& 0x03) <<< 4 ||| (n2.toNat >>> 4 &&& 0x0F)),
      b64Char ((n2.toNat &&& 0x0F) <<< 2)]
  | [n1] => [b64Char (n1.toNat >>> 2 &&& 0x3F), b64Char ((n1.toNat &&& 0x03) <<< 4)]
  | [] => []

/-- The loop over the characters: the bytes it writes, and what is left in `bitBuf`. -/
def decodeLoop (bitBuf : BitVec 32) (bitCount i : Nat) :
    List UInt16 → Except String (List UInt8 × BitVec 32 × Nat)
  | [] => return ([], bitBuf, bitCount)
  | unit :: rest =>
    match b64Decode unit with
    | none => throw s!"`fromBase64url()`: invalid character at index `{i}`"
    | some val =>
      if val = b64Invalid then throw s!"`fromBase64url()`: invalid character at index `{i}`"
      else
        let bitBuf' := bitBuf <<< 6 ||| BitVec.ofNat 32 val
        if 8 ≤ bitCount + 6 then do
          let (bytes, left) ← decodeLoop bitBuf' (bitCount + 6 - 8) (i + 1) rest
          return (UInt8.ofNat (bitBuf' >>> (bitCount + 6 - 8) &&& 0xFF).toNat :: bytes, left)
        else decodeLoop bitBuf' (bitCount + 6) (i + 1) rest

def trailingBitsMessage : String := "`fromBase64url()`: nonzero bits past the last whole byte"

/-- The text without the padding characters at its end. -/
def unpadded (s : List UInt16) : List UInt16 := s.rdropWhile (· = b64PaddingChar)

/-- An array of a fixed length with the bytes written at its start. -/
def written (length : Nat) (bytes : List UInt8) : List UInt8 :=
  bytes.take length ++ List.replicate (length - bytes.length) 0

def fromBase64Polyfill (s : List UInt16) : Except String (List UInt8) :=
  let inLen := (unpadded s).length
  let padding := s.length - inLen
  if inLen % 4 = 1 then throw "`fromBase64url()`: lone final character"
  else if padding ≠ 0 ∧ padding ≠ (4 - inLen % 4) % 4 then
    throw "`fromBase64url()`: padding other than RFC 4648's"
  else do
    let outLen := inLen * 3 / 4
    let (bytes, bitBuf, bitCount) ← decodeLoop 0 0 0 (s.take inLen)
    if bitBuf &&& (1#32 <<< bitCount - 1) ≠ 0 then throw trailingBitsMessage
    else return written outLen bytes

/-- The sextets of a sequence of bytes, the bits left over in the last one zero. -/
def sextets : List UInt8 → List Nat
  | a :: b :: c :: rest =>
    a.toNat / 4 :: (a.toNat % 4 * 16 + b.toNat / 16) :: (b.toNat % 16 * 4 + c.toNat / 64) ::
      c.toNat % 64 :: sextets rest
  | [a, b] => [a.toNat / 4, a.toNat % 4 * 16 + b.toNat / 16, b.toNat % 16 * 4]
  | [a] => [a.toNat / 4, a.toNat % 4 * 16]
  | [] => []

/-- `toBase64({ alphabet: "base64url", omitPadding: true })`. -/
def toBase64 (bytes : List UInt8) : List UInt16 := (sextets bytes).map b64Char

/-- The whole bytes of sextets, what is left over ignored. -/
def groupBytes : List Nat → List UInt8
  | a :: b :: c :: d :: rest =>
    UInt8.ofNat (a * 4 + b / 16) :: UInt8.ofNat (b % 16 * 16 + c / 4) :: UInt8.ofNat (c % 4 * 64 + d) ::
      groupBytes rest
  | [a, b, c] => [UInt8.ofNat (a * 4 + b / 16), UInt8.ofNat (b % 16 * 16 + c / 4)]
  | [a, b] => [UInt8.ofNat (a * 4 + b / 16)]
  | [_] => []
  | [] => []

def isAsciiWhitespace (unit : UInt16) : Bool :=
  unit = 0x09 || unit = 0x0A || unit = 0x0C || unit = 0x0D || unit = 0x20

/-- The six bits of a character of the alphabet. -/
def b64Value (unit : UInt16) : Option Nat := (b64Decode unit).filter (· ≠ b64Invalid)

/-- After the padding: the chunk's bytes, unless more follows. -/
def finalChunk (chunk : List Nat) (rest : List UInt16) : Except String (List UInt8) :=
  if rest.dropWhile isAsciiWhitespace = [] then return groupBytes chunk else throw "SyntaxError"

/-- After a padding character. -/
def paddedChunk (chunk : List Nat) (rest : List UInt16) : Except String (List UInt8) :=
  if chunk.length < 2 then throw "SyntaxError"
  else if chunk.length = 2 then
    match rest.dropWhile isAsciiWhitespace with
    | [] => throw "SyntaxError"
    | unit :: rest =>
      if unit = b64PaddingChar then finalChunk chunk rest else throw "SyntaxError"
  else finalChunk chunk rest

/-- `Uint8Array.fromBase64(encoded, { alphabet: "base64url" })`, with the chunk read so far. It
skips whitespace and ignores the bits past the last whole byte. -/
def fromBase64 (chunk : List Nat) : List UInt16 → Except String (List UInt8)
  | [] => if chunk.length = 1 then throw "SyntaxError" else return groupBytes chunk
  | unit :: rest =>
    if isAsciiWhitespace unit then fromBase64 chunk rest
    else if unit = b64PaddingChar then paddedChunk chunk rest
    else
      match b64Value unit with
      | none => throw "SyntaxError"
      | some value =>
        if chunk.length = 3 then do
          let bytes ← fromBase64 [] rest
          return groupBytes (chunk ++ [value]) ++ bytes
        else fromBase64 (chunk ++ [value]) rest

/-- `hasNonzeroTrailingBits`. -/
def hasNonzeroTrailingBits (encoded : List UInt16) : Bool :=
  let text := unpadded encoded
  let last := ((text.getLast?.bind b64Decode).getD 0)
  if text.length % 4 = 2 then last &&& 0x0F ≠ 0
  else if text.length % 4 = 3 then last &&& 0x03 ≠ 0
  else false

def toUnpaddedBase64url (useBase64Polyfill : Bool) (bytes : List UInt8) : List UInt16 :=
  if useBase64Polyfill then toBase64Polyfill bytes else toBase64 bytes

def fromBase64url (useBase64Polyfill : Bool) (encoded : List UInt16) : Except String (List UInt8) :=
  if useBase64Polyfill then fromBase64Polyfill encoded
  else if encoded.any isAsciiWhitespace then throw "`fromBase64url()`: whitespace in input"
  else do
    let result ← fromBase64 [] encoded
    if hasNonzeroTrailingBits encoded then throw trailingBitsMessage else return result

theorem b64Value_char : ∀ value < 64, b64Value (b64Char value) = some value := by decide +kernel

variable {value before : Nat} {values : List Nat} {rest text s : List UInt16} {bytes : List UInt8}

theorem char_of_b64Value {unit : UInt16} (h : b64Value unit = some value) :
    unit = b64Char value ∧ value < 64 := by
  unfold b64Value b64Decode at h
  split at h
  case isTrue _ =>
    cases hindex : b64Chars.idxOf? unit with
    | none =>
      rw [hindex] at h
      simp only [b64Invalid, Option.getD_none, Option.filter_some, ne_eq, not_true_eq_false,
        decide_false, Bool.false_eq_true, if_false, reduceCtorEq] at h
    | some index =>
      rw [hindex] at h
      obtain ⟨hvalue, _⟩ := Option.filter_eq_some_iff.1 h
      cases Option.some.inj hvalue
      rw [List.idxOf?, List.findIdx?_eq_some_iff_getElem] at hindex
      obtain ⟨hlt, heq, _⟩ := hindex
      rw [Option.getD_some]
      have hlength : b64Chars.length = 64 := by decide +kernel
      refine ⟨?_, by omega⟩
      rw [b64Char, List.getD_eq_getElem?_getD, List.getElem?_eq_getElem hlt, Option.getD_some]
      exact (beq_iff_eq.1 heq).symm
  case isFalse _ => simp at h

theorem char_ne : ∀ value < 64, b64Char value ≠ b64PaddingChar ∧
    isAsciiWhitespace (b64Char value) = false := by decide +kernel

/-- The bits past the last whole byte. -/
def trailingBits : List Nat → Nat
  | _ :: _ :: _ :: _ :: rest => trailingBits rest
  | [_, _, c] => c % 4
  | [_, b] => b % 16
  | [_] => 0
  | [] => 0

theorem sextets_spec (bytes : List UInt8) :
    groupBytes (sextets bytes) = bytes ∧ trailingBits (sextets bytes) = 0 ∧
      (sextets bytes).length % 4 ≠ 1 ∧ ∀ value ∈ sextets bytes, value < 64 := by
  have hbyte (a : UInt8) {n : Nat} (h : n = a.toNat) : UInt8.ofNat n = a := by
    rw [h, UInt8.ofNat_toNat]
  have hlt (a : UInt8) : a.toNat < 256 := a.toNat_lt
  fun_induction sextets bytes with
  | case1 a b c rest ih =>
    obtain ⟨hbytes, htrailing, hlength, hvalues⟩ := ih
    have := hlt a
    have := hlt b
    have := hlt c
    refine ⟨?_, htrailing, ?_, ?_⟩
    · rw [groupBytes, hbytes, hbyte a (by omega), hbyte b (by omega), hbyte c (by omega)]
    · simp only [List.length_cons]
      omega
    · simp only [List.forall_mem_cons]
      exact ⟨by omega, by omega, by omega, by omega, hvalues⟩
  | case2 a b =>
    have := hlt a
    have := hlt b
    refine ⟨?_, ?_, by simp, ?_⟩
    · rw [groupBytes, hbyte a (by omega), hbyte b (by omega)]
    · rw [trailingBits]
      omega
    · simp only [List.forall_mem_cons]
      exact ⟨by omega, by omega, by omega, List.forall_mem_nil _⟩
  | case3 a =>
    have := hlt a
    refine ⟨?_, ?_, by simp, ?_⟩
    · rw [groupBytes, hbyte a (by omega)]
    · rw [trailingBits]
      omega
    · simp only [List.forall_mem_cons]
      exact ⟨by omega, by omega, List.forall_mem_nil _⟩
  | case4 => exact ⟨rfl, rfl, by simp, List.forall_mem_nil _⟩

/-- Sextets without a lone one and without trailing bits are those of their bytes. -/
theorem eq_sextets (hlength : values.length % 4 ≠ 1)
    (hvalues : ∀ value ∈ values, value < 64) (htrailing : trailingBits values = 0) :
    values = sextets (groupBytes values) := by
  fun_induction groupBytes values with
  | case1 a b c d rest ih =>
    simp only [List.forall_mem_cons] at hvalues
    obtain ⟨ha, hb, hc, hd, hrest⟩ := hvalues
    have hfour : (a :: b :: c :: d :: rest).length % 4 = rest.length % 4 := by
      simp only [List.length_cons]
      omega
    rw [sextets, ← ih (by rw [hfour] at hlength; exact hlength) hrest htrailing]
    simp only [UInt8.toNat_ofNat']
    congr 1
    · omega
    congr 1
    · omega
    congr 1
    · omega
    congr 1
    omega
  | case2 a b c =>
    simp only [List.forall_mem_cons] at hvalues
    rw [trailingBits] at htrailing
    simp only [sextets, UInt8.toNat_ofNat']
    congr 1
    · omega
    congr 1
    · omega
    congr 1
    omega
  | case3 a b =>
    simp only [List.forall_mem_cons] at hvalues
    rw [trailingBits] at htrailing
    simp only [sextets, UInt8.toNat_ofNat']
    congr 1
    · omega
    congr 1
    omega
  | case4 => exact absurd rfl hlength
  | case5 => rfl

theorem length_groupBytes (values : List Nat) :
    (groupBytes values).length = values.length * 3 / 4 := by
  fun_induction groupBytes values with
  | case1 a b c d rest ih =>
    simp only [List.length_cons, ih]
    omega
  | case2 => simp
  | case3 => simp
  | case4 => simp
  | case5 => simp

theorem and_masks (n : Nat) : n &&& 0x3F = n % 64 ∧ n &&& 0x0F = n % 16 ∧ n &&& 0x03 = n % 4 :=
  ⟨Nat.and_two_pow_sub_one_eq_mod n 6, Nat.and_two_pow_sub_one_eq_mod n 4,
    Nat.and_two_pow_sub_one_eq_mod n 2⟩

theorem groupBits (a b c : UInt8) :
    a.toNat <<< 16 ||| b.toNat <<< 8 ||| c.toNat = a.toNat * 65536 + b.toNat * 256 + c.toNat := by
  have hb : b.toNat <<< 8 < 2 ^ 16 := by
    have := b.toNat_lt
    rw [Nat.shiftLeft_eq]
    omega
  have hc : c.toNat < 2 ^ 8 := c.toNat_lt
  have hhigh : a.toNat <<< 16 + b.toNat <<< 8 = (a.toNat * 256 + b.toNat) <<< 8 := by
    rw [Nat.shiftLeft_eq, Nat.shiftLeft_eq, Nat.shiftLeft_eq]
    omega
  rw [← Nat.shiftLeft_add_eq_or_of_lt hb, hhigh, ← Nat.shiftLeft_add_eq_or_of_lt hc,
    Nat.shiftLeft_eq]
  omega

theorem toBase64Polyfill_eq (bytes : List UInt8) : toBase64Polyfill bytes = toBase64 bytes := by
  have hlt (a : UInt8) : a.toNat < 256 := a.toNat_lt
  fun_induction toBase64Polyfill bytes with
  | case1 a b c rest n ih =>
    have := hlt a
    have := hlt b
    have := hlt c
    have hn : n = a.toNat * 65536 + b.toNat * 256 + c.toNat := groupBits a b c
    have hfirst : n / 2 ^ 18 % 64 = a.toNat / 4 := by omega
    have hsecond : n / 2 ^ 12 % 64 = a.toNat % 4 * 16 + b.toNat / 16 := by omega
    have hthird : n / 2 ^ 6 % 64 = b.toNat % 16 * 4 + c.toNat / 64 := by omega
    have hfourth : n % 64 = c.toNat % 64 := by omega
    rw [ih, toBase64, toBase64, sextets]
    simp only [List.map_cons, and_masks, Nat.shiftRight_eq_div_pow, hfirst, hsecond, hthird, hfourth]
  | case2 a b =>
    have := hlt a
    have := hlt b
    have hlow : b.toNat / 2 ^ 4 % 16 < 2 ^ 4 := Nat.mod_lt _ (by decide)
    have hor : a.toNat % 4 * 2 ^ 4 ||| b.toNat / 2 ^ 4 % 16 = a.toNat % 4 * 16 + b.toNat / 16 := by
      rw [← Nat.shiftLeft_eq, ← Nat.shiftLeft_add_eq_or_of_lt hlow, Nat.shiftLeft_eq]
      omega
    simp only [toBase64, sextets, List.map_cons, List.map_nil, and_masks,
      Nat.shiftRight_eq_div_pow, Nat.shiftLeft_eq, hor]
    congr 2
    omega
  | case3 a =>
    have := hlt a
    simp only [toBase64, sextets, List.map_cons, List.map_nil, and_masks,
      Nat.shiftRight_eq_div_pow, Nat.shiftLeft_eq]
    congr 2
    omega
  | case4 => rfl

/-- Six bits more, of which the shift loses the ones past the thirty-second. -/
theorem toNat_pushBits (bitBuf : BitVec 32) (h : value < 64) :
    (bitBuf <<< 6 ||| BitVec.ofNat 32 value).toNat = (bitBuf.toNat * 64 + value) % 2 ^ 32 := by
  have hvalue : value < 2 ^ 6 := h
  have hshift : bitBuf.toNat <<< 6 % 2 ^ 32 = (bitBuf.toNat % 2 ^ 26) <<< 6 := by
    rw [Nat.shiftLeft_eq, Nat.shiftLeft_eq]
    omega
  rw [BitVec.toNat_or, BitVec.toNat_shiftLeft, BitVec.toNat_ofNat, hshift,
    Nat.mod_eq_of_lt (show value < 2 ^ 32 by omega), ← Nat.shiftLeft_add_eq_or_of_lt hvalue,
    Nat.shiftLeft_eq]
  omega

theorem toNat_byteOf (bitBuf : BitVec 32) (bitCount : Nat) :
    (bitBuf >>> bitCount &&& 0xFF).toNat = bitBuf.toNat / 2 ^ bitCount % 256 := by
  rw [BitVec.toNat_and, BitVec.toNat_ushiftRight, Nat.shiftRight_eq_div_pow]
  exact Nat.and_two_pow_sub_one_eq_mod _ 8

theorem b64Decode_char (h : value < 64) :
    b64Decode (b64Char value) = some value ∧ value ≠ b64Invalid := by
  have hvalue := b64Value_char value h
  obtain ⟨hdecode, hvalid⟩ := Option.filter_eq_some_iff.1 hvalue
  exact ⟨hdecode, of_decide_eq_true hvalid⟩

/-- At a whole byte a character is only kept. -/
theorem decodeLoop_keep (h : value < 64) (bitBuf : BitVec 32) (i : Nat) (rest : List UInt16) :
    decodeLoop bitBuf 0 i (b64Char value :: rest) =
      decodeLoop (bitBuf <<< 6 ||| BitVec.ofNat 32 value) 6 (i + 1) rest := by
  obtain ⟨hdecode, hvalid⟩ := b64Decode_char h
  rw [decodeLoop, hdecode]
  simp only [hvalid, if_false]
  rw [if_neg (by decide)]

/-- With two bits or more kept a character completes a byte. -/
theorem decodeLoop_write (h : value < 64) {bitBuf bitBuf' : BitVec 32} {bitCount bitCount' i : Nat}
    (hrest : decodeLoop (bitBuf <<< 6 ||| BitVec.ofNat 32 value) bitCount (i + 1) rest =
      .ok (bytes, bitBuf', bitCount')) :
    decodeLoop bitBuf (bitCount + 2) i (b64Char value :: rest) =
      .ok (UInt8.ofNat ((bitBuf.toNat * 64 + value) % 2 ^ 32 / 2 ^ bitCount % 256) :: bytes,
        bitBuf', bitCount') := by
  obtain ⟨hdecode, hvalid⟩ := b64Decode_char h
  rw [decodeLoop, hdecode]
  simp only [hvalid, if_false]
  rw [if_pos (by omega), show bitCount + 2 + 6 - 8 = bitCount by omega, hrest, toNat_byteOf,
    toNat_pushBits bitBuf h]
  rfl

theorem toNat_mask {bitBuf : BitVec 32} {bitCount : Nat} (h : bitCount < 32) :
    (bitBuf &&& (1#32 <<< bitCount - 1)).toNat = bitBuf.toNat % 2 ^ bitCount := by
  have hmask : ∀ n < 32, (1#32 <<< n - 1).toNat = 2 ^ n - 1 := by decide +kernel
  rw [BitVec.toNat_and, hmask bitCount h]
  exact Nat.and_two_pow_sub_one_eq_mod _ _

/-- From a whole byte on the loop writes the bytes of the sextets, and leaves what is past the
last. -/
theorem decodeLoop_values (hvalues : ∀ value ∈ values, value < 64)
    (hlength : values.length % 4 ≠ 1) (bitBuf : BitVec 32) (i : Nat) :
    ∃ bitBuf' bitCount, decodeLoop bitBuf 0 i (values.map b64Char) =
        .ok (groupBytes values, bitBuf', bitCount) ∧
      (bitBuf' &&& (1#32 <<< bitCount - 1)).toNat = trailingBits values := by
  fun_induction groupBytes values generalizing bitBuf i with
  | case1 a b c d rest ih =>
    have hfour : (a :: b :: c :: d :: rest).length % 4 = rest.length % 4 := by
      simp only [List.length_cons]
      omega
    rw [hfour] at hlength
    simp only [List.forall_mem_cons] at hvalues
    obtain ⟨ha, hb, hc, hd, hrest⟩ := hvalues
    obtain ⟨bitBuf', bitCount, hrest, hleft⟩ := ih hrest hlength
      ((((bitBuf <<< 6 ||| BitVec.ofNat 32 a) <<< 6 ||| BitVec.ofNat 32 b) <<< 6 |||
        BitVec.ofNat 32 c) <<< 6 ||| BitVec.ofNat 32 d) (i + 1 + 1 + 1 + 1)
    refine ⟨bitBuf', bitCount, ?_, hleft⟩
    simp only [List.map_cons]
    rw [decodeLoop_keep ha, decodeLoop_write hb (decodeLoop_write hc (decodeLoop_write hd hrest)),
      toNat_pushBits _ hc, toNat_pushBits _ hb, toNat_pushBits _ ha]
    have hfirst : ((bitBuf.toNat * 64 + a) % 2 ^ 32 * 64 + b) % 2 ^ 32 / 2 ^ 4 % 256 =
        a * 4 + b / 16 := by omega
    have hsecond : (((bitBuf.toNat * 64 + a) % 2 ^ 32 * 64 + b) % 2 ^ 32 * 64 + c) % 2 ^ 32 /
        2 ^ 2 % 256 = b % 16 * 16 + c / 4 := by omega
    have hthird : ((((bitBuf.toNat * 64 + a) % 2 ^ 32 * 64 + b) % 2 ^ 32 * 64 + c) % 2 ^ 32 * 64 +
        d) % 2 ^ 32 / 2 ^ 0 % 256 = c % 4 * 64 + d := by omega
    rw [hfirst, hsecond, hthird]
  | case2 a b c =>
    simp only [List.forall_mem_cons] at hvalues
    obtain ⟨ha, hb, hc, _⟩ := hvalues
    refine ⟨((bitBuf <<< 6 ||| BitVec.ofNat 32 a) <<< 6 ||| BitVec.ofNat 32 b) <<< 6 |||
      BitVec.ofNat 32 c, 2, ?_, ?_⟩
    · simp only [List.map_cons, List.map_nil]
      rw [decodeLoop_keep ha, decodeLoop_write hb (decodeLoop_write hc rfl),
        toNat_pushBits _ hb, toNat_pushBits _ ha]
      have hfirst : ((bitBuf.toNat * 64 + a) % 2 ^ 32 * 64 + b) % 2 ^ 32 / 2 ^ 4 % 256 =
          a * 4 + b / 16 := by omega
      have hsecond : (((bitBuf.toNat * 64 + a) % 2 ^ 32 * 64 + b) % 2 ^ 32 * 64 + c) % 2 ^ 32 /
          2 ^ 2 % 256 = b % 16 * 16 + c / 4 := by omega
      rw [hfirst, hsecond]
    · rw [toNat_mask (by decide), toNat_pushBits _ hc, trailingBits]
      omega
  | case3 a b =>
    simp only [List.forall_mem_cons] at hvalues
    obtain ⟨ha, hb, _⟩ := hvalues
    refine ⟨(bitBuf <<< 6 ||| BitVec.ofNat 32 a) <<< 6 ||| BitVec.ofNat 32 b, 4, ?_, ?_⟩
    · simp only [List.map_cons, List.map_nil]
      rw [decodeLoop_keep ha, decodeLoop_write hb rfl, toNat_pushBits _ ha]
      have hfirst : ((bitBuf.toNat * 64 + a) % 2 ^ 32 * 64 + b) % 2 ^ 32 / 2 ^ 4 % 256 =
          a * 4 + b / 16 := by omega
      rw [hfirst]
    · rw [toNat_mask (by decide), toNat_pushBits _ hb, trailingBits]
      omega
  | case4 => exact absurd rfl hlength
  | case5 =>
    refine ⟨bitBuf, 0, rfl, ?_⟩
    rw [toNat_mask (by decide), trailingBits, Nat.pow_zero, Nat.mod_one]

/-- A text the loop goes through is of characters of the alphabet. -/
theorem exists_values_of_decodeLoop {bitBuf : BitVec 32} {bitCount i : Nat}
    {answer : List UInt8 × BitVec 32 × Nat} (h : decodeLoop bitBuf bitCount i text = .ok answer) :
    ∃ values : List Nat, text = values.map b64Char ∧ ∀ value ∈ values, value < 64 := by
  induction text generalizing bitBuf bitCount i answer with
  | nil => exact ⟨[], rfl, List.forall_mem_nil _⟩
  | cons unit rest ih =>
    rw [decodeLoop] at h
    split at h
    case h_1 => cases h
    case h_2 val hdecode =>
      split at h
      case isTrue _ => cases h
      case isFalse hvalid =>
        have hvalue : b64Value unit = some val := by
          rw [b64Value, hdecode, Option.filter_some, if_pos (decide_eq_true hvalid)]
        obtain ⟨hunit, hlt⟩ := char_of_b64Value hvalue
        have hrest : ∃ bitBuf' bitCount' answer',
            decodeLoop bitBuf' bitCount' (i + 1) rest = .ok answer' := by
          split at h
          case isTrue _ =>
            cases hloop : decodeLoop (bitBuf <<< 6 ||| BitVec.ofNat 32 val) (bitCount + 6 - 8)
                (i + 1) rest with
            | error message =>
              simp only [hloop] at h
              cases h
            | ok answer' => exact ⟨_, _, _, hloop⟩
          case isFalse _ => exact ⟨_, _, _, h⟩
        obtain ⟨_, _, _, hrest⟩ := hrest
        obtain ⟨values, hvalues, hall⟩ := ih hrest
        exact ⟨val :: values, by rw [hunit, hvalues, List.map_cons],
          List.forall_mem_cons.2 ⟨hlt, hall⟩⟩

theorem unpadded_append (h : ∀ unit ∈ text, unit ≠ b64PaddingChar) (k : Nat) :
    unpadded (text ++ List.replicate k b64PaddingChar) = text := by
  induction k with
  | zero =>
    rw [List.replicate_zero, List.append_nil, unpadded]
    apply List.rdropWhile_eq_self_iff.2
    intro hne
    exact fun hlast => h _ (List.getLast_mem hne) (of_decide_eq_true hlast)
  | succ k ih =>
    rw [List.replicate_succ', ← List.append_assoc, unpadded,
      List.rdropWhile_concat_pos _ _ _ (by simp)]
    exact ih

theorem exists_padding (s : List UInt16) :
    ∃ k, s = unpadded s ++ List.replicate k b64PaddingChar := by
  induction s using List.reverseRecOn with
  | nil => exact ⟨0, rfl⟩
  | append_singleton s unit ih =>
    by_cases hunit : unit = b64PaddingChar
    · obtain ⟨k, hk⟩ := ih
      refine ⟨k + 1, ?_⟩
      rw [unpadded, List.rdropWhile_concat_pos _ _ _ (by simpa using hunit), ← unpadded,
        List.replicate_succ', ← List.append_assoc, ← hk, hunit]
    · refine ⟨0, ?_⟩
      rw [unpadded, List.rdropWhile_concat_neg _ _ _ (by simpa using hunit), List.replicate_zero,
        List.append_nil]

/-- The sextets that a text spells behind `before` others, unpadded or with as many padding
characters as complete the last group. -/
def Spells (before : Nat) (s : List UInt16) (values : List Nat) : Prop :=
  ∃ k, s = values.map b64Char ++ List.replicate k b64PaddingChar ∧
    (k = 0 ∨ k = (4 - (before + values.length) % 4) % 4) ∧ (before + values.length) % 4 ≠ 1 ∧
    ∀ value ∈ values, value < 64

theorem unpadded_spelled (h : ∀ value ∈ values, value < 64) (k : Nat) :
    unpadded (values.map b64Char ++ List.replicate k b64PaddingChar) = values.map b64Char := by
  apply unpadded_append
  intro unit hunit
  obtain ⟨value, hvalue, rfl⟩ := List.mem_map.1 hunit
  exact (char_ne value (h value hvalue)).1

theorem written_of_length {length : Nat} (h : bytes.length = length) :
    written length bytes = bytes := by
  rw [written, List.take_of_length_le (by omega), h, Nat.sub_self, List.replicate_zero,
    List.append_nil]

theorem fromBase64Polyfill_append {k : Nat}
    (h : unpadded (text ++ List.replicate k b64PaddingChar) = text) :
    fromBase64Polyfill (text ++ List.replicate k b64PaddingChar) =
      if text.length % 4 = 1 then throw "`fromBase64url()`: lone final character"
      else if k ≠ 0 ∧ k ≠ (4 - text.length % 4) % 4 then
        throw "`fromBase64url()`: padding other than RFC 4648's"
      else do
        let (bytes, bitBuf, bitCount) ← decodeLoop 0 0 0 text
        if bitBuf &&& (1#32 <<< bitCount - 1) ≠ 0 then throw trailingBitsMessage
        else return written (text.length * 3 / 4) bytes := by
  have hlength : (text ++ List.replicate k b64PaddingChar).length - text.length = k := by
    rw [List.length_append, List.length_replicate]
    omega
  simp only [fromBase64Polyfill, h, hlength, List.take_left]

/-- The loop over the characters of sextets, and the check after it. -/
theorem decodeLoop_checked (hvalues : ∀ value ∈ values, value < 64)
    (hlone : values.length % 4 ≠ 1) :
    (do
      let (bytes, bitBuf, bitCount) ← decodeLoop 0 0 0 (values.map b64Char)
      if bitBuf &&& (1#32 <<< bitCount - 1) ≠ 0 then throw trailingBitsMessage
      else return written ((values.map b64Char).length * 3 / 4) bytes) =
      if trailingBits values ≠ 0 then throw trailingBitsMessage else .ok (groupBytes values) := by
  obtain ⟨bitBuf, bitCount, hloop, hleft⟩ := decodeLoop_values hvalues hlone 0 0
  have hzero : bitBuf &&& (1#32 <<< bitCount - 1) = 0 ↔ trailingBits values = 0 := by
    rw [← hleft, ← BitVec.toNat_inj]
    rfl
  have hwritten : written ((values.map b64Char).length * 3 / 4) (groupBytes values) =
      groupBytes values := by
    apply written_of_length
    rw [length_groupBytes, List.length_map]
  rw [hloop]
  by_cases htrailing : trailingBits values = 0
  · rw [if_neg (not_not.2 htrailing)]
    simp only [bind, Except.bind, if_neg (not_not.2 (hzero.2 htrailing)), hwritten]
    rfl
  · rw [if_pos htrailing]
    simp only [bind, Except.bind, if_pos (mt hzero.1 htrailing)]

/-- The polyfill decodes what spells sextets without trailing bits. -/
theorem fromBase64Polyfill_iff :
    fromBase64Polyfill s = .ok bytes ↔
      ∃ values, Spells 0 s values ∧ trailingBits values = 0 ∧ bytes = groupBytes values := by
  constructor
  · intro h
    obtain ⟨k, hk⟩ := exists_padding s
    have hunpadded : unpadded (unpadded s ++ List.replicate k b64PaddingChar) = unpadded s := by
      rw [← hk]
    rw [hk, fromBase64Polyfill_append hunpadded] at h
    split at h
    case isTrue _ => cases h
    case isFalse hlone =>
    split at h
    case isTrue _ => cases h
    case isFalse hpadding =>
      have hvalues : ∃ values : List Nat, unpadded s = values.map b64Char ∧
          ∀ value ∈ values, value < 64 := by
        cases hloop : decodeLoop 0 0 0 (unpadded s) with
        | error message =>
          rw [hloop] at h
          cases h
        | ok answer => exact exists_values_of_decodeLoop hloop
      obtain ⟨values, htext, hvalues⟩ := hvalues
      rw [htext] at h
      rw [htext, List.length_map] at hlone hpadding
      rw [decodeLoop_checked hvalues hlone] at h
      split at h
      case isTrue _ => cases h
      case isFalse htrailing =>
        cases h
        rw [← Nat.zero_add values.length] at hlone hpadding
        refine ⟨values, ⟨k, ?_, ?_, hlone, hvalues⟩, not_not.1 htrailing, rfl⟩
        · rw [← htext]
          exact hk
        · rcases Nat.eq_zero_or_pos k with hzero | hpos
          · exact .inl hzero
          · exact .inr (not_not.1 fun hne => hpadding ⟨by omega, hne⟩)
  · rintro ⟨values, ⟨k, rfl, hk, hlone, hvalues⟩, htrailing, rfl⟩
    rw [Nat.zero_add] at hk hlone
    rw [fromBase64Polyfill_append (unpadded_spelled hvalues k), if_neg, if_neg,
      decodeLoop_checked hvalues hlone, if_neg (not_not.2 htrailing)]
    · rw [List.length_map]
      omega
    · rw [List.length_map]
      exact hlone

theorem groupBytes_append {chunk : List Nat} (h : chunk.length = 4) (values : List Nat) :
    groupBytes (chunk ++ values) = groupBytes chunk ++ groupBytes values := by
  rcases chunk with _ | ⟨a, _ | ⟨b, _ | ⟨c, _ | ⟨d, _ | ⟨e, rest⟩⟩⟩⟩⟩
  · cases h
  · cases h
  · cases h
  · cases h
  · rfl
  · simp only [List.length_cons] at h
    omega

/-- The bits past the last whole byte are in the last sextet. -/
theorem trailingBits_eq (values : List Nat) :
    trailingBits values =
      if values.length % 4 = 2 then values.getLastD 0 % 16
      else if values.length % 4 = 3 then values.getLastD 0 % 4 else 0 := by
  fun_induction trailingBits values with
  | case1 a b c d rest ih =>
    have hfour : (a :: b :: c :: d :: rest).length % 4 = rest.length % 4 := by
      simp only [List.length_cons]
      omega
    rw [ih, hfour]
    cases rest with
    | nil => rfl
    | cons e rest => rfl
  | case2 => rfl
  | case3 => rfl
  | case4 => rfl
  | case5 => rfl

theorem hasNonzeroTrailingBits_eq (h : ∀ value ∈ values, value < 64) (k : Nat) :
    hasNonzeroTrailingBits (values.map b64Char ++ List.replicate k b64PaddingChar) =
      decide (trailingBits values ≠ 0) := by
  have hlast : (((values.map b64Char).getLast?.bind b64Decode).getD 0) = values.getLastD 0 := by
    rw [List.getLast?_map, List.getLastD_eq_getLast?]
    cases hvalue : values.getLast? with
    | none => rfl
    | some value =>
      have := (b64Decode_char (h value (List.mem_of_getLast? hvalue))).1
      simp [this]
  rw [trailingBits_eq]
  simp only [hasNonzeroTrailingBits, unpadded_spelled h k, hlast, List.length_map]
  simp only [and_masks]
  split
  · rfl
  split
  · rfl
  · rfl

theorem spells_nil :
    Spells before [] values ↔ values = [] ∧ before % 4 ≠ 1 := by
  constructor
  · rintro ⟨k, heq, _, hlone, _⟩
    obtain ⟨hmap, _⟩ := List.append_eq_nil_iff.1 heq.symm
    cases List.map_eq_nil_iff.1 hmap
    exact ⟨rfl, hlone⟩
  · rintro ⟨rfl, hlone⟩
    exact ⟨0, rfl, .inl rfl, hlone, List.forall_mem_nil _⟩

theorem spells_char (h : value < 64) :
    Spells before (b64Char value :: rest) values ↔
      ∃ values', values = value :: values' ∧ Spells (before + 1) rest values' := by
  constructor
  · rintro ⟨k, heq, hk, hlone, hvalues⟩
    cases values with
    | nil =>
      cases k with
      | zero => cases heq
      | succ k => exact absurd (List.cons.inj heq).1 (char_ne value h).1
    | cons value' values' =>
      obtain ⟨hchar, hrest⟩ := List.cons.inj heq
      rw [List.forall_mem_cons] at hvalues
      have hvalue := b64Value_char value h
      rw [hchar, b64Value_char value' hvalues.1] at hvalue
      cases Option.some.inj hvalue
      rw [List.length_cons, ← Nat.add_assoc, Nat.add_right_comm] at hk hlone
      exact ⟨values', rfl, k, hrest, hk, hlone, hvalues.2⟩
  · rintro ⟨values', rfl, k, rfl, hk, hlone, hvalues⟩
    rw [Nat.add_right_comm, Nat.add_assoc, ← List.length_cons (a := value)] at hk hlone
    exact ⟨k, rfl, hk, hlone, List.forall_mem_cons.2 ⟨h, hvalues⟩⟩

theorem spells_padding :
    Spells before (b64PaddingChar :: rest) values ↔
      values = [] ∧ (before % 4 = 2 ∧ rest = [b64PaddingChar] ∨ before % 4 = 3 ∧ rest = []) := by
  constructor
  · rintro ⟨k, heq, hk, hlone, hvalues⟩
    cases values with
    | cons value values =>
      exact absurd (List.cons.inj heq).1.symm (char_ne value (hvalues value List.mem_cons_self)).1
    | nil =>
      cases k with
      | zero => cases heq
      | succ k =>
        have hrest : rest = List.replicate k b64PaddingChar := (List.cons.inj heq).2
        rw [List.length_nil, Nat.add_zero] at hk hlone
        refine ⟨rfl, ?_⟩
        by_cases htwo : before % 4 = 2
        · rw [show k = 1 by omega] at hrest
          exact .inl ⟨htwo, hrest⟩
        · rw [show k = 0 by omega] at hrest
          exact .inr ⟨by omega, hrest⟩
  · rintro ⟨rfl, ⟨hbefore, rfl⟩ | ⟨hbefore, rfl⟩⟩
    · exact ⟨2, rfl, .inr (by rw [List.length_nil]; omega), by rw [List.length_nil]; omega,
        List.forall_mem_nil _⟩
    · exact ⟨1, rfl, .inr (by rw [List.length_nil]; omega), by rw [List.length_nil]; omega,
        List.forall_mem_nil _⟩

theorem not_spells {unit : UInt16} (hvalue : b64Value unit = none) (hunit : unit ≠ b64PaddingChar) :
    ¬Spells before (unit :: rest) values := by
  rintro ⟨k, heq, _, _, hvalues⟩
  cases values with
  | cons value values =>
    rw [(List.cons.inj heq).1, b64Value_char value (hvalues value List.mem_cons_self)] at hvalue
    cases hvalue
  | nil =>
    cases k with
    | zero => cases heq
    | succ k => exact hunit (List.cons.inj heq).1

theorem spells_add_four :
    Spells (before + 4) s values ↔ Spells before s values := by
  have hmod : (before + 4 + values.length) % 4 = (before + values.length) % 4 := by omega
  simp only [Spells, hmod]

theorem dropWhile_whitespace (h : ∀ unit ∈ s, isAsciiWhitespace unit = false) :
    s.dropWhile isAsciiWhitespace = s := by
  cases s with
  | nil => rfl
  | cons unit rest =>
    rw [List.dropWhile_cons_of_neg]
    rw [h unit List.mem_cons_self]
    decide

theorem finalChunk_iff (chunk : List Nat) (hrest : ∀ unit ∈ rest, isAsciiWhitespace unit = false) :
    finalChunk chunk rest = .ok bytes ↔ bytes = groupBytes chunk ∧ rest = [] := by
  rw [finalChunk, dropWhile_whitespace hrest]
  split
  case isTrue h => exact ⟨fun heq => ⟨(Except.ok.inj heq).symm, h⟩, fun heq => by rw [heq.1]; rfl⟩
  case isFalse h =>
    constructor
    · intro heq
      cases heq
    · intro heq
      exact absurd heq.2 h

theorem paddedChunk_iff {chunk : List Nat} (hchunk : chunk.length < 4)
    (hrest : ∀ unit ∈ rest, isAsciiWhitespace unit = false) :
    paddedChunk chunk rest = .ok bytes ↔ bytes = groupBytes chunk ∧
      (chunk.length % 4 = 2 ∧ rest = [b64PaddingChar] ∨ chunk.length % 4 = 3 ∧ rest = []) := by
  rw [paddedChunk, dropWhile_whitespace hrest, Nat.mod_eq_of_lt hchunk]
  split
  case isTrue hshort =>
    constructor
    · intro heq
      cases heq
    · intro heq
      omega
  case isFalse hshort =>
    split
    case isTrue htwo =>
      cases rest with
      | nil =>
        constructor
        · intro heq
          cases heq
        · rintro ⟨_, ⟨_, heq⟩ | ⟨hthree, _⟩⟩
          · cases heq
          · omega
      | cons unit rest =>
        by_cases hunit : unit = b64PaddingChar
        · simp [hunit, finalChunk_iff chunk (List.forall_mem_cons.1 hrest).2, htwo]
        · simp [hunit, throw, throwThe, MonadExceptOf.throw]
    case isFalse htwo =>
      have hthree : chunk.length = 3 := by omega
      simp [finalChunk_iff chunk hrest, hthree]

/-- The platform's decoder takes what completes the chunk to a spelling, and ignores trailing
bits. -/
theorem fromBase64_iff {chunk : List Nat} (hchunk : chunk.length < 4)
    (hs : ∀ unit ∈ s, isAsciiWhitespace unit = false) :
    fromBase64 chunk s = .ok bytes ↔
      ∃ values, Spells chunk.length s values ∧ bytes = groupBytes (chunk ++ values) := by
  induction s generalizing chunk bytes with
  | nil =>
    simp only [spells_nil, fromBase64, Nat.mod_eq_of_lt hchunk]
    split
    case isTrue hone => simp [hone, throw, throwThe, MonadExceptOf.throw]
    case isFalse hone =>
      constructor
      · intro heq
        exact ⟨[], ⟨rfl, hone⟩, by rw [List.append_nil]; exact (Except.ok.inj heq).symm⟩
      · rintro ⟨values, ⟨rfl, _⟩, rfl⟩
        rw [List.append_nil]
        rfl
  | cons unit rest ih =>
    rw [List.forall_mem_cons] at hs
    rw [fromBase64, if_neg (by rw [hs.1]; decide)]
    by_cases hunit : unit = b64PaddingChar
    · subst hunit
      rw [if_pos rfl, paddedChunk_iff hchunk hs.2]
      simp only [spells_padding]
      constructor
      · rintro ⟨hbytes, hpadding⟩
        exact ⟨[], ⟨rfl, hpadding⟩, by rw [List.append_nil]; exact hbytes⟩
      · rintro ⟨values, ⟨rfl, hpadding⟩, hbytes⟩
        rw [List.append_nil] at hbytes
        exact ⟨hbytes, hpadding⟩
    · rw [if_neg hunit]
      cases hvalue : b64Value unit with
      | none =>
        simp [not_spells hvalue hunit, throw, throwThe, MonadExceptOf.throw]
      | some value =>
        obtain ⟨rfl, hlt⟩ := char_of_b64Value hvalue
        have hsplit : (∃ values, Spells chunk.length (b64Char value :: rest) values ∧
            bytes = groupBytes (chunk ++ values)) ↔
            ∃ values, Spells (chunk.length + 1) rest values ∧
              bytes = groupBytes (chunk ++ [value] ++ values) := by
          simp only [spells_char hlt, List.append_assoc, List.singleton_append]
          constructor
          · rintro ⟨_, ⟨values, rfl, hspells⟩, hbytes⟩
            exact ⟨values, hspells, hbytes⟩
          · rintro ⟨values, hspells, hbytes⟩
            exact ⟨_, ⟨values, rfl, hspells⟩, hbytes⟩
        rw [hsplit]
        by_cases hfull : chunk.length = 3
        · -- The chunk is full: the next starts empty.
          have hfour : (chunk ++ [value]).length = 4 := by
            rw [List.length_append, hfull, List.length_singleton]
          have hrest (answer : List UInt8) : fromBase64 [] rest = .ok answer ↔
              ∃ values, Spells (chunk.length + 1) rest values ∧ answer = groupBytes values := by
            rw [ih (by decide) hs.2, hfull, show 3 + 1 = 0 + 4 from rfl]
            simp only [spells_add_four, List.length_nil, List.nil_append]
          simp only [hfull, if_true, groupBytes_append hfour]
          rw [hfull] at hrest
          cases hanswer : fromBase64 [] rest with
          | error message =>
            constructor
            · intro heq
              cases heq
            · rintro ⟨values, hspells, _⟩
              have := (hrest _).2 ⟨values, hspells, rfl⟩
              rw [hanswer] at this
              cases this
          | ok answer =>
            constructor
            · intro heq
              cases heq
              obtain ⟨values, hspells, rfl⟩ := (hrest answer).1 hanswer
              exact ⟨values, hspells, rfl⟩
            · rintro ⟨values, hspells, rfl⟩
              have := (hrest _).2 ⟨values, hspells, rfl⟩
              rw [hanswer] at this
              cases this
              rfl
        · have hlength : (chunk ++ [value]).length = chunk.length + 1 := by
            rw [List.length_append, List.length_singleton]
          simp only [hfull, if_false]
          rw [ih (by omega) hs.2, hlength]

/-- Both decoders take what spells sextets without trailing bits. -/
theorem fromBase64url_iff (useBase64Polyfill : Bool) (encoded : List UInt16) (bytes : List UInt8) :
    fromBase64url useBase64Polyfill encoded = .ok bytes ↔
      ∃ values, Spells 0 encoded values ∧ trailingBits values = 0 ∧ bytes = groupBytes values := by
  cases useBase64Polyfill with
  | true =>
    rw [fromBase64url, if_pos rfl]
    exact fromBase64Polyfill_iff
  | false =>
    rw [fromBase64url, if_neg Bool.false_ne_true]
    split
    case isTrue hspace =>
      constructor
      · intro heq
        cases heq
      · rintro ⟨values, ⟨k, rfl, _, _, hvalues⟩, _⟩
        obtain ⟨unit, hunit, hspace⟩ := List.any_eq_true.1 hspace
        rcases List.mem_append.1 hunit with hunit | hunit
        · obtain ⟨value, hvalue, rfl⟩ := List.mem_map.1 hunit
          rw [(char_ne value (hvalues value hvalue)).2] at hspace
          cases hspace
        · rw [List.eq_of_mem_replicate hunit] at hspace
          cases hspace
    case isFalse hspace =>
      have hs : ∀ unit ∈ encoded, isAsciiWhitespace unit = false := by
        intro unit hunit
        rw [Bool.eq_false_iff]
        exact fun h => hspace (List.any_eq_true.2 ⟨unit, hunit, h⟩)
      have hiff (answer : List UInt8) : fromBase64 [] encoded = .ok answer ↔
          ∃ values, Spells 0 encoded values ∧ answer = groupBytes values :=
        fromBase64_iff (show ([] : List Nat).length < 4 from Nat.zero_lt_succ 3) hs
      constructor
      · intro heq
        cases hanswer : fromBase64 [] encoded with
        | error message =>
          rw [hanswer] at heq
          cases heq
        | ok answer =>
          obtain ⟨values, hspells, rfl⟩ := (hiff answer).1 hanswer
          have hspelled := hspells
          obtain ⟨k, hk, _, _, hvalues⟩ := hspelled
          rw [hanswer, hk] at heq
          simp only [bind, Except.bind, hasNonzeroTrailingBits_eq hvalues k,
            decide_eq_true_eq] at heq
          split at heq
          case isTrue _ => cases heq
          case isFalse htrailing =>
            cases heq
            exact ⟨values, hspells, not_not.1 htrailing, rfl⟩
      · rintro ⟨values, hspells, htrailing, rfl⟩
        have hanswer := (hiff _).2 ⟨values, hspells, rfl⟩
        obtain ⟨k, hk, _, _, hvalues⟩ := hspells
        rw [hanswer, hk]
        simp only [bind, Except.bind, hasNonzeroTrailingBits_eq hvalues k, htrailing, ne_eq,
          not_true_eq_false, decide_false, Bool.false_eq_true, if_false]
        rfl

theorem toUnpaddedBase64url_eq (useBase64Polyfill : Bool) (bytes : List UInt8) :
    toUnpaddedBase64url useBase64Polyfill bytes = (sextets bytes).map b64Char := by
  cases useBase64Polyfill with
  | true => exact toBase64Polyfill_eq bytes
  | false => rfl

/-- A text with the padding characters that complete its last group. -/
def padded (text : List UInt16) : List UInt16 :=
  text ++ List.replicate ((4 - text.length % 4) % 4) b64PaddingChar

/-- The sextets without trailing bits that a text spells are those of its bytes. -/
theorem spelled_iff {encoded : List UInt16} :
    (∃ values, Spells 0 encoded values ∧ trailingBits values = 0 ∧ bytes = groupBytes values) ↔
      encoded = (sextets bytes).map b64Char ∨ encoded = padded ((sextets bytes).map b64Char) := by
  obtain ⟨hbytes, htrailing, hlone, hvalues⟩ := sextets_spec bytes
  constructor
  · rintro ⟨values, ⟨k, rfl, hk, hlone', hvalues'⟩, htrailing', rfl⟩
    rw [Nat.zero_add] at hk hlone'
    rw [← eq_sextets hlone' hvalues' htrailing', padded, List.length_map]
    rcases hk with rfl | rfl
    · exact .inl (List.append_nil _)
    · exact .inr rfl
  · intro h
    rw [← Nat.zero_add (sextets bytes).length] at hlone
    rcases h with rfl | rfl
    · exact ⟨sextets bytes, ⟨0, (List.append_nil _).symm, .inl rfl, hlone, hvalues⟩, htrailing,
        hbytes.symm⟩
    · refine ⟨sextets bytes, ⟨_, rfl, .inr ?_, hlone, hvalues⟩, htrailing, hbytes.symm⟩
      rw [List.length_map, Nat.zero_add]

/-- The decoder takes the text of a sequence of bytes, with its padding or without, and nothing
else; an unpadded text it takes is the only one of its bytes. -/
theorem fromBase64url_image (useBase64Polyfill useBase64Polyfill' : Bool) (encoded other : List UInt16)
    (bytes : List UInt8) :
    (fromBase64url useBase64Polyfill encoded = .ok bytes ↔
      encoded = toUnpaddedBase64url useBase64Polyfill' bytes ∨
        encoded = padded (toUnpaddedBase64url useBase64Polyfill' bytes)) ∧
    (fromBase64url useBase64Polyfill encoded = .ok bytes →
      fromBase64url useBase64Polyfill' other = .ok bytes →
      b64PaddingChar ∉ encoded → b64PaddingChar ∉ other → encoded = other) := by
  have hiff (polyfill : Bool) (text : List UInt16) :=
    (fromBase64url_iff polyfill text bytes).trans spelled_iff
  refine ⟨by rw [toUnpaddedBase64url_eq]; exact hiff _ encoded, fun h h' hpadding hpadding' => ?_⟩
  have hunpadded (text : List UInt16) (hmem : b64PaddingChar ∉ text)
      (htext : text = (sextets bytes).map b64Char ∨ text = padded ((sextets bytes).map b64Char)) :
      text = (sextets bytes).map b64Char := by
    rcases htext with htext | htext
    · exact htext
    · rw [padded] at htext
      cases hcount : (4 - ((sextets bytes).map b64Char).length % 4) % 4 with
      | zero =>
        rw [htext, hcount]
        exact List.append_nil _
      | succ k =>
        rw [hcount] at htext
        refine absurd ?_ hmem
        rw [htext]
        exact List.mem_append_right _ List.mem_cons_self
  rw [hunpadded encoded hpadding ((hiff _ encoded).1 h), hunpadded other hpadding' ((hiff _ other).1 h')]

end Base64url
