import Mathlib.Data.List.Basic
import Mathlib.Data.Nat.Size
import Mathlib.Tactic.Ring
import CommonFabric.Utf8Order

/-!
# Text in UTF-8

The bytes a text is encoded to, where a lone surrogate becomes a replacement character, and the
decoding that refuses all bytes but those. Well formed texts are decoded from their bytes.
-/

namespace Bytes

open Utf8 (codePoints isHighSurrogateCharCode isLowSurrogateCharCode pairPoint)

/-- The byte of a number below 256. -/
def byte (n : Nat) : UInt8 := UInt8.ofNat n

/-- The bytes of a code point. A surrogate takes the three that its value would. -/
def utf8BytesOf (point : Nat) : List UInt8 :=
  if point < 0x80 then [byte point]
  else if point < 0x800 then [byte (0xC0 + point / 64), byte (0x80 + point % 64)]
  else if point < 0x10000 then
    [byte (0xE0 + point / 4096), byte (0x80 + point / 64 % 64), byte (0x80 + point % 64)]
  else
    [byte (0xF0 + point / 262144), byte (0x80 + point / 4096 % 64), byte (0x80 + point / 64 % 64),
      byte (0x80 + point % 64)]

def isSurrogate (point : Nat) : Bool := 0xD800 ≤ point && point ≤ 0xDFFF

/-- `TextEncoder.encode`. -/
def encodeText (units : List UInt16) : List UInt8 :=
  (codePoints units).flatMap fun point =>
    utf8BytesOf (if isSurrogate point then 0xFFFD else point)

/-- A text with no lone surrogate. -/
def WellFormed (units : List UInt16) : Prop := ∀ point ∈ codePoints units, isSurrogate point = false

instance (units : List UInt16) : Decidable (WellFormed units) :=
  inferInstanceAs (Decidable (∀ point ∈ codePoints units, isSurrogate point = false))

theorem codePoints_append {a : List UInt16} (h : WellFormed a) (b : List UInt16) :
    codePoints (a ++ b) = codePoints a ++ codePoints b := by
  fun_induction codePoints a with
  | case1 high low rest hpair ih =>
    rw [List.cons_append, List.cons_append, codePoints, if_pos hpair, ih, List.cons_append]
    intro point hpoint
    apply h
    rw [codePoints, if_pos hpair]
    exact List.mem_cons_of_mem _ hpoint
  | case2 high low rest hpair ih =>
    rw [List.cons_append, List.cons_append, codePoints, if_neg hpair, List.cons_append,
      ← List.cons_append, ih]
    intro point hpoint
    apply h
    rw [codePoints, if_neg hpair]
    exact List.mem_cons_of_mem _ hpoint
  | case3 u =>
    have hu : isHighSurrogateCharCode u = false := by
      have hsurrogate := h u.toNat (List.mem_singleton_self _)
      rw [isSurrogate] at hsurrogate
      rw [Bool.eq_false_iff]
      intro hhigh
      rw [Utf8.high_iff] at hhigh
      simp only [Bool.and_eq_false_iff, decide_eq_false_iff_not] at hsurrogate
      omega
    exact Utf8.codePoints_cons_of_not_high hu b
  | case4 => rfl

theorem WellFormed.append {a b : List UInt16} (ha : WellFormed a) (hb : WellFormed b) :
    WellFormed (a ++ b) := by
  intro point hpoint
  rw [codePoints_append ha, List.mem_append] at hpoint
  cases hpoint with
  | inl hmem => exact ha point hmem
  | inr hmem => exact hb point hmem

end Bytes
