import CommonFabric.Utf8Text

/-!
# WTF-8

The encoding that writes a lone surrogate as the three bytes of its value. It is told apart by
its bytes, and the byte order of two encodings is the order of the strings by code point.
-/

namespace Utf8

open Bytes (byte utf8BytesOf isSurrogate encodeText WellFormed)

/-- `TextEncoder.encodeInto`: as many whole code points as there is room for. -/
def encodePoints : Nat → List Nat → List UInt8
  | _, [] => []
  | room, point :: points =>
    let bytes := utf8BytesOf (if isSurrogate point then 0xFFFD else point)
    if bytes.length ≤ room then bytes ++ encodePoints (room - bytes.length) points else []

def encodeInto (room : Nat) (units : List UInt16) : List UInt8 :=
  encodePoints room (codePoints units)

/-- The three bytes of a lone surrogate. -/
def surrogateBytes (unit : UInt16) : List UInt8 :=
  [0xED, byte (0x80 ||| (unit.toNat >>> 6 &&& 0x3F)), byte (0x80 ||| (unit.toNat &&& 0x3F))]

/-- The loop of `encodeWtf8` over the units left, with the bytes written and the run since the
last lone surrogate. -/
def encodeRuns (size : Nat) (written : List UInt8) (run : List UInt16) : List UInt16 → List UInt8
  | unit :: next :: rest =>
    if unit < 0xD800 || 0xDFFF < unit then
      encodeRuns size written (run ++ [unit]) (next :: rest)
    else if unit ≤ 0xDBFF && isLowSurrogateCharCode next then
      encodeRuns size written (run ++ [unit, next]) rest
    else
      let filled := written ++ encodeInto (size - written.length) run
      encodeRuns size (filled ++ surrogateBytes unit) [] (next :: rest)
  | [unit] =>
    if unit < 0xD800 || 0xDFFF < unit then
      written ++ encodeInto (size - written.length) (run ++ [unit])
    else
      let filled := written ++ encodeInto (size - written.length) run ++ surrogateBytes unit
      filled ++ encodeInto (size - filled.length) []
  | [] => written ++ encodeInto (size - written.length) run

/-- `encodeWtf8`. No code unit takes more than three bytes. -/
def encodeWtf8 (value : JsString) : List UInt8 :=
  if WellFormed value.units then encodeText value.units
  else encodeRuns (value.units.length * 3) [] [] value.units

/-- `utf8ByteLength`. -/
def byteLengthOfUnits : List UInt16 → Nat
  | unit :: next :: rest =>
    if unit < 0x80 then 1 + byteLengthOfUnits (next :: rest)
    else if unit < 0x800 then 2 + byteLengthOfUnits (next :: rest)
    else if unit ≥ 0xD800 && unit ≤ 0xDBFF then
      if next ≥ 0xDC00 && next ≤ 0xDFFF then 4 + byteLengthOfUnits rest
      else 3 + byteLengthOfUnits (next :: rest)
    else 3 + byteLengthOfUnits (next :: rest)
  | [unit] => if unit < 0x80 then 1 else if unit < 0x800 then 2 else 3
  | [] => 0

def utf8ByteLength (text : JsString) : Nat := byteLengthOfUnits text.units

/-- The bytes of a string's code points, a surrogate's as of any other. -/
def pointBytes (points : List Nat) : List UInt8 := points.flatMap utf8BytesOf

theorem pointBytes_append (ps qs : List Nat) :
    pointBytes (ps ++ qs) = pointBytes ps ++ pointBytes qs := List.flatMap_append

theorem toNat_byte {n : Nat} (h : n < 256) : (byte n).toNat = n := by
  rw [byte, UInt8.toNat_ofNat']
  exact Nat.mod_eq_of_lt h

theorem pairPoint_lt {high low : UInt16} (hhigh : isHighSurrogateCharCode high = true)
    (hlow : isLowSurrogateCharCode low = true) : pairPoint high low < 0x110000 := by
  rw [high_iff] at hhigh
  rw [low_iff] at hlow
  unfold pairPoint
  omega

theorem codePoints_lt (units : List UInt16) : ∀ point ∈ codePoints units, point < 0x110000 := by
  have hunit : ∀ u : UInt16, u.toNat < 0x110000 := by
    intro u
    have := toNat_lt_pairPoint_base u
    omega
  fun_induction codePoints units with
  | case1 high low rest hpair ih =>
    rw [Bool.and_eq_true] at hpair
    exact List.forall_mem_cons.2 ⟨pairPoint_lt hpair.1 hpair.2, ih⟩
  | case2 high low rest hpair ih => exact List.forall_mem_cons.2 ⟨hunit high, ih⟩
  | case3 u => exact List.forall_mem_cons.2 ⟨hunit u, List.forall_mem_nil _⟩
  | case4 => exact List.forall_mem_nil _

theorem or_eq_add {n : Nat} (h : n < 0x40) : 0x80 ||| n = 0x80 + n :=
  (Nat.two_pow_add_eq_or_of_lt (show n < 2 ^ 6 from h) 2).symm

theorem and_eq_mod (n : Nat) : n &&& 0x3F = n % 0x40 := Nat.and_two_pow_sub_one_eq_mod n 6

variable {unit : UInt16}

theorem surrogateBytes_eq (h : isSurrogate unit.toNat = true) :
    surrogateBytes unit = utf8BytesOf unit.toNat := by
  simp only [isSurrogate, Bool.and_eq_true, decide_eq_true_eq] at h
  have hlead : unit.toNat / 4096 = 13 := by omega
  rw [surrogateBytes, and_eq_mod, and_eq_mod, or_eq_add (Nat.mod_lt _ (by decide)),
    or_eq_add (Nat.mod_lt _ (by decide)), Nat.shiftRight_eq_div_pow, utf8BytesOf,
    if_neg (by omega), if_neg (by omega), if_pos (by omega), hlead]
  rfl

theorem length_utf8BytesOf_pos (point : Nat) : 0 < (utf8BytesOf point).length := by
  unfold utf8BytesOf
  split
  · simp
  split
  · simp
  split <;> simp

/-- The bytes as numbers. -/
theorem toNat_utf8BytesOf {p : Nat} (h : p < 0x110000) :
    (utf8BytesOf p).map UInt8.toNat =
      if p < 0x80 then [p]
      else if p < 0x800 then [0xC0 + p / 64, 0x80 + p % 64]
      else if p < 0x10000 then [0xE0 + p / 4096, 0x80 + p / 64 % 64, 0x80 + p % 64]
      else [0xF0 + p / 262144, 0x80 + p / 4096 % 64, 0x80 + p / 64 % 64, 0x80 + p % 64] := by
  unfold utf8BytesOf
  split
  · simp only [List.map_cons, List.map_nil]
    rw [toNat_byte (by omega)]
  split
  · simp only [List.map_cons, List.map_nil]
    rw [toNat_byte (by omega), toNat_byte (by omega)]
  split
  · simp only [List.map_cons, List.map_nil]
    rw [toNat_byte (by omega), toNat_byte (by omega), toNat_byte (by omega)]
  · simp only [List.map_cons, List.map_nil]
    rw [toNat_byte (by omega), toNat_byte (by omega), toNat_byte (by omega),
      toNat_byte (by omega)]

/-- The bytes of the smaller code point come before, whatever follows them. -/
theorem before_utf8BytesOf {p q : Nat} (h : p < q) (hq : q < 0x110000) (x y : List Nat) :
    Before ((utf8BytesOf p).map UInt8.toNat ++ x) ((utf8BytesOf q).map UInt8.toNat ++ y) := by
  rw [toNat_utf8BytesOf (by omega), toNat_utf8BytesOf hq]
  split
  · split
    · exact .inl h
    split
    · exact .inl (by omega)
    split <;> exact .inl (by omega)
  rw [if_neg (show ¬q < 0x80 by omega)]
  split
  · split
    · simp only [List.cons_append, Before]
      omega
    split <;> exact .inl (by omega)
  rw [if_neg (show ¬q < 0x800 by omega)]
  split
  · split
    · simp only [List.cons_append, Before]
      omega
    · exact .inl (by omega)
  · rw [if_neg (show ¬q < 0x10000 by omega)]
    simp only [List.cons_append, Before]
    omega

theorem before_append_left (x : List Nat) {ps qs : List Nat} (h : Before ps qs) :
    Before (x ++ ps) (x ++ qs) := by
  induction x with
  | nil => exact h
  | cons p x ih => exact .inr ⟨rfl, ih⟩

/-- The order of code points is the order of their bytes. -/
theorem before_pointBytes {ps qs : List Nat} (hqs : ∀ q ∈ qs, q < 0x110000) (h : Before ps qs) :
    Before ((pointBytes ps).map UInt8.toNat) ((pointBytes qs).map UInt8.toNat) := by
  induction ps generalizing qs with
  | nil =>
    cases qs with
    | nil => exact h.elim
    | cons q qs =>
      rw [pointBytes, pointBytes, List.flatMap_nil, List.flatMap_cons, List.map_append]
      have hpos := length_utf8BytesOf_pos q
      cases hbytes : utf8BytesOf q with
      | nil => simp [hbytes] at hpos
      | cons b bytes => trivial
  | cons p ps ih =>
    cases qs with
    | nil => exact h.elim
    | cons q qs =>
      rw [pointBytes, pointBytes, List.flatMap_cons, List.flatMap_cons, List.map_append,
        List.map_append]
      rw [List.forall_mem_cons] at hqs
      rcases h with h | ⟨rfl, h⟩
      · exact before_utf8BytesOf h hqs.1 _ _
      · exact before_append_left _ (ih hqs.2 h)

/-- A text whose bytes fit is written whole. -/
theorem encodePoints_of_le {points : List Nat} (hpoints : ∀ p ∈ points, isSurrogate p = false)
    {room : Nat} (h : (pointBytes points).length ≤ room) :
    encodePoints room points = pointBytes points := by
  induction points generalizing room with
  | nil => rfl
  | cons p points ih =>
    rw [List.forall_mem_cons] at hpoints
    rw [pointBytes, List.flatMap_cons, List.length_append, ← pointBytes] at h
    simp only [encodePoints, hpoints.1, Bool.false_eq_true, if_false]
    rw [if_pos (by omega), ih hpoints.2 (by omega)]
    rfl

theorem encodeText_of_wellFormed {units : List UInt16} (h : WellFormed units) :
    encodeText units = pointBytes (codePoints units) := by
  unfold encodeText pointBytes
  apply List.flatMap_congr
  intro point hpoint
  rw [h point hpoint]
  rfl

theorem length_utf8BytesOf_le {p : Nat} : (utf8BytesOf p).length ≤ 4 := by
  unfold utf8BytesOf
  split
  · simp
  split
  · simp
  split <;> simp

theorem length_utf8BytesOf_unit (u : UInt16) : (utf8BytesOf u.toNat).length ≤ 3 := by
  have := toNat_lt_pairPoint_base u
  unfold utf8BytesOf
  split
  · simp
  split
  · simp
  · simp

/-- No code unit takes more than three bytes. -/
theorem length_pointBytes_le (units : List UInt16) :
    (pointBytes (codePoints units)).length ≤ units.length * 3 := by
  fun_induction codePoints units with
  | case1 high low rest hpair ih =>
    have := length_utf8BytesOf_le (p := pairPoint high low)
    rw [pointBytes, List.flatMap_cons, List.length_append, ← pointBytes]
    simp only [List.length_cons]
    omega
  | case2 high low rest hpair ih =>
    have := length_utf8BytesOf_unit high
    rw [pointBytes, List.flatMap_cons, List.length_append, ← pointBytes]
    simp only [List.length_cons] at ih ⊢
    omega
  | case3 u =>
    have := length_utf8BytesOf_unit u
    simpa [pointBytes] using this
  | case4 => exact Nat.le_refl _

theorem encodeInto_of_le {units : List UInt16} (h : WellFormed units) {room : Nat}
    (hroom : units.length * 3 ≤ room) : encodeInto room units = pointBytes (codePoints units) :=
  encodePoints_of_le h (Nat.le_trans (length_pointBytes_le units) hroom)

theorem lone_iff :
    (unit < 0xD800 || 0xDFFF < unit) = false ↔ isSurrogate unit.toNat = true := by
  simp only [isSurrogate, Bool.or_eq_false_iff, Bool.and_eq_true, decide_eq_false_iff_not,
    decide_eq_true_eq, UInt16.lt_iff_toNat_lt, UInt16.reduceToNat]
  omega

theorem isHigh_iff (h : (unit < 0xD800 || 0xDFFF < unit) = false) :
    decide (unit ≤ 0xDBFF) = isHighSurrogateCharCode unit := by
  rw [lone_iff] at h
  simp only [isSurrogate, Bool.and_eq_true, decide_eq_true_eq] at h
  rw [Bool.eq_iff_iff, decide_eq_true_eq, high_iff, UInt16.le_iff_toNat_le]
  simp only [UInt16.reduceToNat]
  omega

theorem wellFormed_unit (h : (unit < 0xD800 || 0xDFFF < unit) = true) :
    WellFormed [unit] := by
  intro point hpoint
  rw [codePoints, List.mem_singleton] at hpoint
  rw [hpoint, Bool.eq_false_iff]
  intro hsurrogate
  rw [lone_iff.2 hsurrogate] at h
  cases h

theorem wellFormed_pair {high low : UInt16} (hhigh : isHighSurrogateCharCode high = true)
    (hlow : isLowSurrogateCharCode low = true) : WellFormed [high, low] := by
  intro point hpoint
  rw [codePoints, hhigh, hlow, Bool.and_self, if_pos rfl, codePoints, List.mem_singleton] at hpoint
  have := pairPoint_ge high low
  rw [hpoint, Bool.eq_false_iff]
  simp only [isSurrogate, ne_eq, Bool.and_eq_true, decide_eq_true_eq]
  omega

/-- A run and a lone surrogate behind it. -/
theorem pointBytes_lone {run : List UInt16} (hrun : WellFormed run)
    (hunit : isSurrogate unit.toNat = true) {rest : List UInt16}
    (hrest : codePoints (unit :: rest) = unit.toNat :: codePoints rest) :
    pointBytes (codePoints (run ++ unit :: rest)) =
      pointBytes (codePoints run) ++ surrogateBytes unit ++ pointBytes (codePoints rest) := by
  rw [Bytes.codePoints_append hrun, hrest, pointBytes_append, surrogateBytes_eq hunit,
    List.append_assoc]
  rfl

theorem length_filled (written : List UInt8) (run : List UInt16) (unit : UInt16) :
    (written ++ pointBytes (codePoints run) ++ surrogateBytes unit).length ≤
      written.length + (run.length + 1) * 3 := by
  have := length_pointBytes_le run
  simp only [List.length_append, surrogateBytes, List.length_cons, List.length_nil]
  omega

/-- What the loop returns: what is written, and the bytes of the run and of what is left. -/
theorem encodeRuns_eq {size : Nat} {written : List UInt8} {run rest : List UInt16}
    (hrun : WellFormed run) (hsize : written.length + (run.length + rest.length) * 3 ≤ size) :
    encodeRuns size written run rest = written ++ pointBytes (codePoints (run ++ rest)) := by
  fun_induction encodeRuns size written run rest with
  | case1 written run unit next rest hplain ih =>
    rw [ih (hrun.append (wellFormed_unit hplain)), List.append_assoc]
    · rfl
    · simp only [List.length_append, List.length_cons, List.length_nil] at hsize ⊢
      omega
  | case2 written run unit next rest hplain hpair ih =>
    rw [Bool.not_eq_true] at hplain
    rw [isHigh_iff hplain, Bool.and_eq_true] at hpair
    rw [ih (hrun.append (wellFormed_pair hpair.1 hpair.2)), List.append_assoc]
    · rfl
    · simp only [List.length_append, List.length_cons, List.length_nil] at hsize ⊢
      omega
  | case3 written run unit next rest hplain hpair filled ih =>
    rw [Bool.not_eq_true] at hplain
    rw [isHigh_iff hplain] at hpair
    rw [List.length_cons] at hsize
    have hfilled : filled = written ++ pointBytes (codePoints run) := by
      rw [← encodeInto_of_le hrun]
      omega
    have hlength := length_filled written run unit
    rw [pointBytes_lone hrun (lone_iff.1 hplain) (by rw [codePoints, if_neg hpair]), ih]
    · rw [hfilled]
      simp only [List.append_assoc, List.nil_append]
    · intro point hpoint
      cases hpoint
    · rw [hfilled]
      rw [List.length_nil]
      omega
  | case4 written run unit hplain =>
    have hwhole := hrun.append (wellFormed_unit hplain)
    rw [encodeInto_of_le hwhole]
    simp only [List.length_append, List.length_cons, List.length_nil] at hsize ⊢
    omega
  | case5 written run unit hplain filled =>
    rw [Bool.not_eq_true] at hplain
    rw [List.length_singleton] at hsize
    have hfilled : filled = written ++ pointBytes (codePoints run) ++ surrogateBytes unit := by
      rw [← encodeInto_of_le hrun]
      omega
    rw [hfilled, pointBytes_lone hrun (lone_iff.1 hplain) rfl]
    simp [encodeInto, encodePoints, codePoints, pointBytes]
  | case6 written run =>
    rw [List.append_nil, encodeInto_of_le hrun]
    rw [List.length_nil] at hsize
    omega

theorem encodeWtf8_eq (value : JsString) : encodeWtf8 value = pointBytes (codePoints value.units) := by
  rw [encodeWtf8]
  split
  case isTrue h => exact encodeText_of_wellFormed h
  case isFalse _ =>
    rw [encodeRuns_eq, List.nil_append, List.nil_append]
    · intro point hpoint
      cases hpoint
    · simp

theorem before_encodeWtf8 {a b : JsString} (h : Before (codePoints a.units) (codePoints b.units)) :
    Before ((encodeWtf8 a).map UInt8.toNat) ((encodeWtf8 b).map UInt8.toNat) := by
  rw [encodeWtf8_eq, encodeWtf8_eq]
  exact before_pointBytes (codePoints_lt _) h

theorem length_utf8BytesOf (point : Nat) :
    (utf8BytesOf point).length =
      if point < 0x80 then 1 else if point < 0x800 then 2 else if point < 0x10000 then 3 else 4 := by
  unfold utf8BytesOf
  split
  · rfl
  split
  · rfl
  split <;> rfl

theorem length_pointBytes_cons (point : Nat) (points : List Nat) :
    (pointBytes (point :: points)).length =
      (utf8BytesOf point).length + (pointBytes points).length := by
  rw [pointBytes, List.flatMap_cons, List.length_append, ← pointBytes]

theorem lt_unit_iff : (unit < 0x80 ↔ unit.toNat < 0x80) ∧
    (unit < 0x800 ↔ unit.toNat < 0x800) := ⟨UInt16.lt_iff_toNat_lt, UInt16.lt_iff_toNat_lt⟩

/-- A code unit that is a code point of its own takes one to three bytes. -/
theorem length_utf8BytesOf_toNat (unit : UInt16) :
    (utf8BytesOf unit.toNat).length = if unit < 0x80 then 1 else if unit < 0x800 then 2 else 3 := by
  rw [length_utf8BytesOf, if_pos (toNat_lt_pairPoint_base unit)]
  simp only [lt_unit_iff.1, lt_unit_iff.2]

theorem bounds_high (unit : UInt16) :
    (unit ≥ 0xD800 && unit ≤ 0xDBFF) = isHighSurrogateCharCode unit := by
  rw [Bool.eq_iff_iff, Bool.and_eq_true, decide_eq_true_eq, decide_eq_true_eq, high_iff]
  exact and_congr UInt16.le_iff_toNat_le UInt16.le_iff_toNat_le

theorem bounds_low (unit : UInt16) :
    (unit ≥ 0xDC00 && unit ≤ 0xDFFF) = isLowSurrogateCharCode unit := by
  rw [Bool.eq_iff_iff, Bool.and_eq_true, decide_eq_true_eq, decide_eq_true_eq, low_iff]
  exact and_congr UInt16.le_iff_toNat_le UInt16.le_iff_toNat_le

theorem not_high_of_lt (h : unit < 0x800) :
    isHighSurrogateCharCode unit = false := by
  rw [lt_unit_iff.2] at h
  rw [Bool.eq_false_iff, Ne, high_iff]
  omega

theorem byteLengthOfUnits_eq (units : List UInt16) :
    byteLengthOfUnits units = (pointBytes (codePoints units)).length := by
  fun_induction byteLengthOfUnits units with
  | case1 unit next rest hone ih =>
    have hlt : unit < 0x800 := by
      rw [lt_unit_iff.1] at hone
      rw [lt_unit_iff.2]
      omega
    rw [codePoints_cons_of_not_high (not_high_of_lt hlt), length_pointBytes_cons,
      length_utf8BytesOf_toNat, if_pos hone, ih]
  | case2 unit next rest hone htwo ih =>
    rw [codePoints_cons_of_not_high (not_high_of_lt htwo), length_pointBytes_cons,
      length_utf8BytesOf_toNat, if_neg hone, if_pos htwo, ih]
  | case3 unit next rest hone htwo hhigh hlow ih =>
    rw [bounds_high] at hhigh
    rw [bounds_low] at hlow
    have hge := pairPoint_ge unit next
    rw [codePoints, hhigh, hlow, Bool.and_self, if_pos rfl, length_pointBytes_cons,
      length_utf8BytesOf, if_neg (by omega), if_neg (by omega), if_neg (by omega), ih]
  | case4 unit next rest hone htwo hhigh hlow ih =>
    rw [bounds_low] at hlow
    rw [codePoints, if_neg (by simp [hlow]), length_pointBytes_cons, length_utf8BytesOf_toNat,
      if_neg hone, if_neg htwo, ih]
  | case5 unit next rest hone htwo hhigh ih =>
    rw [bounds_high, Bool.not_eq_true] at hhigh
    rw [codePoints_cons_of_not_high hhigh, length_pointBytes_cons, length_utf8BytesOf_toNat,
      if_neg hone, if_neg htwo, ih]
  | case6 unit hone =>
    rw [codePoints, length_pointBytes_cons, length_utf8BytesOf_toNat, if_pos hone]
    rfl
  | case7 unit hone htwo =>
    rw [codePoints, length_pointBytes_cons, length_utf8BytesOf_toNat, if_neg hone, if_pos htwo]
    rfl
  | case8 unit hone htwo =>
    rw [codePoints, length_pointBytes_cons, length_utf8BytesOf_toNat, if_neg hone, if_neg htwo]
    rfl
  | case9 => rfl

theorem utf8Compare_eq_zero_iff {a b : JsString} : utf8Compare a b = 0 ↔ a = b := by
  by_cases hab : a = b
  · rw [hab, utf8Compare_self]
    simp
  · refine iff_of_false ?_ hab
    rcases signed_utf8Compare hab with ⟨hsign, _⟩ | ⟨hsign, _⟩
    · omega
    · omega

/-- Different strings have different bytes, and the bytes come in the order of the strings. -/
theorem before_encodeWtf8_iff {a b : JsString} :
    Before ((encodeWtf8 a).map UInt8.toNat) ((encodeWtf8 b).map UInt8.toNat) ↔
      Before (codePoints a.units) (codePoints b.units) := by
  refine ⟨fun h => ?_, before_encodeWtf8⟩
  by_cases hab : a = b
  · rw [hab] at h
    exact absurd h (before_irrefl _)
  · rcases signed_utf8Compare hab with ⟨_, hbefore⟩ | ⟨_, hbefore⟩
    · exact hbefore
    · exact absurd (before_trans h (before_encodeWtf8 hbefore)) (before_irrefl _)

theorem encodeWtf8_injective : Function.Injective encodeWtf8 := by
  intro a b h
  by_contra hab
  rcases signed_utf8Compare hab with ⟨_, hbefore⟩ | ⟨_, hbefore⟩
  · have := before_encodeWtf8 hbefore
    rw [h] at this
    exact before_irrefl _ this
  · have := before_encodeWtf8 hbefore
    rw [h] at this
    exact before_irrefl _ this

/-- Strings are compared by code point, which is by the bytes of WTF-8; these tell the string, and
there are as many as counted. -/
theorem utf8Compare_bytes (a b : JsString) :
    (utf8Compare a b < 0 ↔ Before (codePoints a.units) (codePoints b.units)) ∧
      (0 < utf8Compare a b ↔ Before (codePoints b.units) (codePoints a.units)) ∧
      (utf8Compare a b = 0 ↔ a = b) ∧
      (Before (codePoints a.units) (codePoints b.units) ↔
        Before ((encodeWtf8 a).map UInt8.toNat) ((encodeWtf8 b).map UInt8.toNat)) ∧
      (encodeWtf8 a = encodeWtf8 b ↔ a = b) ∧
      (encodeWtf8 a).length = utf8ByteLength a := by
  refine ⟨utf8Compare_neg_iff, utf8Compare_pos_iff, utf8Compare_eq_zero_iff,
    before_encodeWtf8_iff.symm, encodeWtf8_injective.eq_iff, ?_⟩
  rw [encodeWtf8_eq, utf8ByteLength, byteLengthOfUnits_eq]

end Utf8
