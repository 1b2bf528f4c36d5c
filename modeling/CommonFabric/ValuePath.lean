import Mathlib.Data.Nat.Digits.Lemmas
import CommonFabric.JsValue

/-!
# Paths into a document

A path is a list of segments. On the wire and in a stored patch it is a JSON
Pointer, which `parsePointer` reads. Two paths overlap when one is a prefix of
the other, the relation every conflict check is stated by.
-/

abbrev ValuePath := List JsString

namespace Pointer

/-- `/` and `~`, `0` and `1`, as code units. -/
def slash : UInt16 := 47
def tilde : UInt16 := 126
def zero : UInt16 := 48
def one : UInt16 := 49

/-- `text.split("/")`. -/
def split : List UInt16 → List (List UInt16)
  | [] => [[]]
  | u :: rest =>
    if u = slash then [] :: split rest
    else match split rest with
      | [] => [[u]]
      | part :: parts => (u :: part) :: parts

/-- `text.replaceAll(from, to)` for a pattern of two code units and a
replacement of one. -/
def replacePair (a b c : UInt16) : List UInt16 → List UInt16
  | x :: y :: rest =>
    if x = a ∧ y = b then c :: replacePair a b c rest
    else x :: replacePair a b c (y :: rest)
  | text => text

def decodeSegment (part : List UInt16) : JsString :=
  ⟨replacePair tilde zero tilde (replacePair tilde one slash part)⟩

/-- Parses a JSON Pointer into its segments; a text that neither is empty nor
starts with `/` is refused with the message given. -/
def parsePointer (path : JsString) : Except JsString ValuePath :=
  match path.units with
  | [] => .ok []
  | u :: rest =>
    if u = slash then .ok ((split rest).map decodeSegment)
    else .error (.append "invalid JSON pointer: " path)

/-- `segment.replaceAll("~", "~0")`, then `.replaceAll("/", "~1")`. -/
def encodeSegment (segment : JsString) : List UInt16 :=
  segment.units.flatMap fun u =>
    if u = tilde then [tilde, zero] else if u = slash then [tilde, one] else [u]

def encodePointer (path : ValuePath) : JsString :=
  ⟨path.flatMap fun segment => slash :: encodeSegment segment⟩

end Pointer

def isPrefixPath (pre path : ValuePath) : Bool := pre.isPrefixOf path

def pathsOverlap (left right : ValuePath) : Bool :=
  isPrefixPath left right || isPrefixPath right left

def parentPath (path : ValuePath) : ValuePath := path.dropLast

theorem isPrefixPath_iff (p q : ValuePath) : isPrefixPath p q = true ↔ ∃ r, q = p ++ r := by
  simp only [isPrefixPath, List.isPrefixOf_iff_prefix]
  constructor
  · rintro ⟨r, hr⟩; exact ⟨r, hr.symm⟩
  · rintro ⟨r, hr⟩; exact ⟨r, hr.symm⟩

@[simp] theorem isPrefixPath_append (p r : ValuePath) : isPrefixPath p (p ++ r) = true :=
  (isPrefixPath_iff _ _).2 ⟨r, rfl⟩

@[simp] theorem isPrefixPath_self (p : ValuePath) : isPrefixPath p p = true :=
  (isPrefixPath_iff _ _).2 ⟨[], by simp⟩

theorem pathsOverlap_comm (p q : ValuePath) : pathsOverlap p q = pathsOverlap q p := by
  simp [pathsOverlap, Bool.or_comm]

theorem pathsOverlap_append (p r : ValuePath) : pathsOverlap p (p ++ r) = true := by
  simp [pathsOverlap, isPrefixPath]

theorem pathsOverlap_nil (p : ValuePath) : pathsOverlap [] p = true := by
  simp [pathsOverlap, isPrefixPath]

theorem pathsOverlap_cons (k : JsString) (p q : ValuePath) :
    pathsOverlap (k :: p) (k :: q) = pathsOverlap p q := by
  simp [pathsOverlap, isPrefixPath]

theorem pathsOverlap_cons_ne {k l : JsString} (h : k ≠ l) (p q : ValuePath) :
    pathsOverlap (k :: p) (l :: q) = false := by
  simp [pathsOverlap, isPrefixPath, List.isPrefixOf_cons_cons, h, Ne.symm h]

theorem pathsOverlap_append_left (stem p q : ValuePath) :
    pathsOverlap (stem ++ p) (stem ++ q) = pathsOverlap p q := by
  induction stem with
  | nil => rfl
  | cons k stem ih => rw [List.cons_append, List.cons_append, pathsOverlap_cons, ih]

/-- Two paths that do not overlap part at a segment. -/
theorem diverge {p q : ValuePath} (h : pathsOverlap p q = false) :
    ∃ stem k l r s, p = stem ++ k :: r ∧ q = stem ++ l :: s ∧ k ≠ l := by
  induction p generalizing q with
  | nil => simp [pathsOverlap_nil] at h
  | cons k p ih =>
    cases q with
    | nil => simp [pathsOverlap_comm _ [], pathsOverlap_nil] at h
    | cons l q =>
      by_cases hkl : k = l
      · subst hkl
        rw [pathsOverlap_cons] at h
        obtain ⟨stem, k', l', r, s, hp, hq, hne⟩ := ih h
        exact ⟨k :: stem, k', l', r, s, by simp [hp], by simp [hq], hne⟩
      · exact ⟨[], k, l, p, q, rfl, rfl, hkl⟩

def isDigit (u : UInt16) : Bool := 48 ≤ u.toNat && u.toNat ≤ 57

/-- `/^(0|[1-9]\d*)$/`. -/
def isArraySegment (segment : JsString) : Bool :=
  match segment.units with
  | [] => false
  | [u] => isDigit u
  | u :: rest => isDigit u && u != 48 && rest.all isDigit

/-- The index an array segment names, `Number(segment)`. -/
def arrayIndex? (segment : JsString) : Option Nat :=
  if isArraySegment segment then
    some (Nat.ofDigits 10 ((segment.units.map fun u => u.toNat - 48).reverse))
  else none

def maxArrayIndex : Nat := 2 ^ 32 - 2

/-- `isArrayIndexPropertyName`. -/
def isArrayIndexPropertyName (key : JsString) : Bool :=
  match arrayIndex? key with
  | some i => decide (i ≤ maxArrayIndex)
  | none => false

/-- The `-` of a JSON Pointer, which names the place after an array's last. -/
def appendMarker : JsString := "-"

/-- Indicates whether the container created for a missing slot is an array,
given the key that goes on to address it. -/
def missingContainerIsArray (nextKey : JsString) : Bool :=
  isArrayIndexPropertyName nextKey || decide (nextKey = appendMarker)

private theorem segment_digits {s : JsString} (h : isArraySegment s = true) :
    s.units ≠ [] ∧ (∀ u ∈ s.units, 48 ≤ u.toNat ∧ u.toNat ≤ 57) ∧
      (s.units.length = 1 ∨ s.units.head? ≠ some 48) := by
  obtain ⟨units⟩ := s
  match units with
  | [] => simp [isArraySegment] at h
  | [u] =>
    refine ⟨by simp, ?_, .inl rfl⟩
    intro v hv
    rw [List.mem_singleton] at hv
    subst hv
    simpa [isArraySegment, isDigit] using h
  | u :: v :: rest =>
    simp only [isArraySegment, Bool.and_eq_true, bne_iff_ne, ne_eq, List.all_eq_true,
      isDigit, decide_eq_true_eq] at h
    refine ⟨by simp, ?_, .inr (by simpa using h.1.2)⟩
    intro w hw
    rcases List.mem_cons.1 hw with rfl | hw
    · exact h.1.1
    · exact h.2 w hw

private def digitsOf (units : List UInt16) : List Nat := (units.map fun u => u.toNat - 48).reverse

private theorem digitsOf_injective {us vs : List UInt16}
    (hu : ∀ u ∈ us, 48 ≤ u.toNat ∧ u.toNat ≤ 57) (hv : ∀ v ∈ vs, 48 ≤ v.toNat ∧ v.toNat ≤ 57)
    (h : digitsOf us = digitsOf vs) : us = vs := by
  replace h := List.reverse_injective h
  induction us generalizing vs with
  | nil => cases vs <;> simp_all
  | cons u us ih =>
    cases vs with
    | nil => simp at h
    | cons v vs =>
      simp only [List.map_cons, List.cons.injEq] at h
      have h1 := hu u (by simp)
      have h2 := hv v (by simp)
      have huv : u = v := UInt16.toNat_inj.1 (by omega)
      rw [huv, ih (fun w hw => hu w (by simp [hw])) (fun w hw => hv w (by simp [hw])) h.2]

private theorem head_zero {us : List UInt16} (h0 : us.head? = some 48)
    (hl : us.length = 1 ∨ us.head? ≠ some 48) : us = [48] := by
  cases us with
  | nil => simp at h0
  | cons u rest =>
    rcases hl with hl | hl
    · simp only [List.length_cons, Nat.add_eq_right, List.length_eq_zero_iff] at hl
      simp only [List.head?_cons, Option.some.injEq] at h0
      rw [hl, h0]
    · exact absurd h0 hl

/-- A canonical decimal numeral other than `0` is the digits of its value. -/
private theorem digits_value {us : List UInt16} (hu : ∀ u ∈ us, 48 ≤ u.toNat ∧ u.toNat ≤ 57)
    (h0 : us.head? ≠ some 48) : Nat.digits 10 (Nat.ofDigits 10 (digitsOf us)) = digitsOf us := by
  apply Nat.digits_ofDigits 10 (by omega)
  · intro d hd
    simp only [digitsOf, List.mem_reverse, List.mem_map] at hd
    obtain ⟨u, hmem, rfl⟩ := hd
    have := hu u hmem
    omega
  · intro hne
    cases us with
    | nil => simp [digitsOf] at hne
    | cons u rest =>
      have hu0 := hu u (by simp)
      have hne0 : u.toNat ≠ 48 := by
        intro he
        apply h0
        simpa using UInt16.toNat_inj.1 (by simpa using he)
      simp only [digitsOf, List.map_cons, List.reverse_cons, List.getLast_append_singleton]
      omega

/-- Zero is written in one way. -/
private theorem only_zero {us vs : List UInt16} (hv : ∀ v ∈ vs, 48 ≤ v.toNat ∧ v.toNat ≤ 57)
    (hne : vs ≠ []) (hv0 : vs.head? ≠ some 48) (hus : us = [48])
    (h : Nat.ofDigits 10 (digitsOf us) = Nat.ofDigits 10 (digitsOf vs)) : False := by
  have hd := digits_value hv hv0
  rw [← h, hus, show Nat.digits 10 (Nat.ofDigits 10 (digitsOf [48])) = [] from by
    simp [digitsOf]] at hd
  have hlen := congrArg List.length hd
  simp only [digitsOf, List.length_nil, List.length_reverse, List.length_map] at hlen
  exact hne (List.length_eq_zero_iff.1 hlen.symm)

/-- A canonical decimal numeral is determined by its value. -/
theorem arrayIndex?_injective {s t : JsString} {i : Nat}
    (hs : arrayIndex? s = some i) (ht : arrayIndex? t = some i) : s = t := by
  simp only [arrayIndex?] at hs ht
  split at hs <;> [skip; simp at hs]
  split at ht <;> [skip; simp at ht]
  rename_i hs' ht'
  obtain ⟨hsne, hsd, hsh⟩ := segment_digits hs'
  obtain ⟨htne, htd, hth⟩ := segment_digits ht'
  obtain ⟨us⟩ := s
  obtain ⟨vs⟩ := t
  simp only [Option.some.injEq] at hs ht
  have heq : Nat.ofDigits 10 (digitsOf us) = Nat.ofDigits 10 (digitsOf vs) := hs.trans ht.symm
  by_cases hu0 : us.head? = some 48 <;> by_cases hv0 : vs.head? = some 48
  · rw [head_zero hu0 hsh, head_zero hv0 hth]
  · exact (only_zero htd htne hv0 (head_zero hu0 hsh) heq).elim
  · exact (only_zero hsd hsne hu0 (head_zero hv0 hth) heq.symm).elim
  · have h := digits_value hsd hu0
    rw [heq, digits_value htd hv0] at h
    exact congrArg JsString.mk (digitsOf_injective hsd htd h.symm)

/-- The own slot a segment names in an array or a plain object; a segment that
is no array index names none of an array's, and a hole is none. -/
def child : FabricValue → JsString → Option FabricValue
  | .array slots, segment =>
    match arrayIndex? segment with
    | some i => slots[i]?.join
    | none => none
  | .record fields, segment => Fields.get? fields segment
  | _, _ => none

/-- The value at a path, or `none` where the path is missing. -/
def valueAt : FabricValue → ValuePath → Option FabricValue
  | v, [] => some v
  | v, segment :: rest => (child v segment).bind fun c => valueAt c rest

@[simp] theorem valueAt_nil (v : FabricValue) : valueAt v [] = some v := rfl

theorem valueAt_cons (v : FabricValue) (k : JsString) (rest : ValuePath) :
    valueAt v (k :: rest) = (child v k).bind fun c => valueAt c rest := rfl

theorem valueAt_append (v : FabricValue) (p q : ValuePath) :
    valueAt v (p ++ q) = (valueAt v p).bind fun c => valueAt c q := by
  induction p generalizing v with
  | nil => simp
  | cons k p ih =>
    simp only [List.cons_append, valueAt_cons]
    cases child v k with
    | none => rfl
    | some c => simpa using ih c

/-- Values that agree on every own slot agree below the root. -/
theorem valueAt_congr_child {v w : FabricValue} {k : JsString} (h : child v k = child w k)
    (rest : ValuePath) : valueAt v (k :: rest) = valueAt w (k :: rest) := by
  rw [valueAt_cons, valueAt_cons, h]

namespace Pointer

theorem replacePair_cons_ne {a x : UInt16} (h : x ≠ a) (b c : UInt16) (rest : List UInt16) :
    replacePair a b c (x :: rest) = x :: replacePair a b c rest := by
  cases rest with
  | nil => simp [replacePair]
  | cons y rest => simp [replacePair, h]

theorem replacePair_pair (a b c : UInt16) (rest : List UInt16) :
    replacePair a b c (a :: b :: rest) = c :: replacePair a b c rest := by
  simp [replacePair]

theorem replacePair_other {b y : UInt16} (a c : UInt16) (h : y ≠ b) (rest : List UInt16) :
    replacePair a b c (a :: y :: rest) = a :: replacePair a b c (y :: rest) := by
  simp [replacePair, h]

/-- An encoded segment with `~1` decoded and `~0` not yet. -/
def halfDecoded (units : List UInt16) : List UInt16 :=
  units.flatMap fun u => if u = tilde then [tilde, zero] else [u]

theorem replacePair_encodeSegment (segment : JsString) :
    replacePair tilde one slash (encodeSegment segment) = halfDecoded segment.units := by
  obtain ⟨units⟩ := segment
  rw [encodeSegment, halfDecoded]
  induction units with
  | nil => rfl
  | cons u rest ih =>
    rw [List.flatMap_cons, List.flatMap_cons]
    by_cases ht : u = tilde
    · rw [if_pos ht, if_pos ht, List.cons_append, List.cons_append, List.nil_append,
        replacePair_other tilde slash (by decide), replacePair_cons_ne (by decide), ih]
      rfl
    · rw [if_neg ht, if_neg ht]
      by_cases hs : u = slash
      · rw [if_pos hs, List.cons_append, List.cons_append, List.nil_append, replacePair_pair, ih, hs]
        rfl
      · rw [if_neg hs, List.cons_append, List.nil_append, replacePair_cons_ne ht, ih]
        rfl

theorem replacePair_halfDecoded (units : List UInt16) :
    replacePair tilde zero tilde (halfDecoded units) = units := by
  rw [halfDecoded]
  induction units with
  | nil => rfl
  | cons u rest ih =>
    rw [List.flatMap_cons]
    by_cases ht : u = tilde
    · rw [if_pos ht, List.cons_append, List.cons_append, List.nil_append, replacePair_pair, ih, ht]
    · rw [if_neg ht, List.cons_append, List.nil_append, replacePair_cons_ne ht, ih]

@[simp] theorem decodeSegment_encodeSegment (segment : JsString) :
    decodeSegment (encodeSegment segment) = segment := by
  rw [decodeSegment, replacePair_encodeSegment, replacePair_halfDecoded]

theorem slash_not_mem_encodeSegment (segment : JsString) : slash ∉ encodeSegment segment := by
  rw [encodeSegment, List.mem_flatMap]
  rintro ⟨u, _, hmem⟩
  by_cases ht : u = tilde
  · rw [if_pos ht] at hmem
    revert hmem
    decide
  · rw [if_neg ht] at hmem
    by_cases hs : u = slash
    · rw [if_pos hs] at hmem
      revert hmem
      decide
    · rw [if_neg hs, List.mem_singleton] at hmem
      exact hs hmem.symm

theorem split_append_slash {part : List UInt16} (h : slash ∉ part) (rest : List UInt16) :
    split (part ++ slash :: rest) = part :: split rest := by
  induction part with
  | nil => simp [split]
  | cons u part ih =>
    rw [List.mem_cons, not_or] at h
    rw [List.cons_append, split, if_neg (Ne.symm h.1), ih h.2]

theorem split_of_not_mem {part : List UInt16} (h : slash ∉ part) : split part = [part] := by
  induction part with
  | nil => rfl
  | cons u part ih =>
    rw [List.mem_cons, not_or] at h
    rw [split, if_neg (Ne.symm h.1), ih h.2]

theorem split_encode (segment : JsString) (path : ValuePath) :
    (split (encodeSegment segment ++ path.flatMap fun s => slash :: encodeSegment s)).map
      decodeSegment = segment :: path := by
  induction path generalizing segment with
  | nil =>
    rw [List.flatMap_nil, List.append_nil, split_of_not_mem (slash_not_mem_encodeSegment segment),
      List.map_singleton, decodeSegment_encodeSegment]
  | cons next path ih =>
    rw [List.flatMap_cons, List.cons_append,
      split_append_slash (slash_not_mem_encodeSegment segment), List.map_cons, ih,
      decodeSegment_encodeSegment]

@[simp] theorem parsePointer_encodePointer (path : ValuePath) :
    parsePointer (encodePointer path) = .ok path := by
  cases path with
  | nil => rfl
  | cons segment path =>
    rw [parsePointer, encodePointer, List.flatMap_cons, List.cons_append]
    simp only [if_true]
    rw [split_encode]

theorem encodePointer_injective : Function.Injective encodePointer := by
  intro path path' h
  have hparse := parsePointer_encodePointer path
  rw [h, parsePointer_encodePointer] at hparse
  exact (Except.ok.inj hparse).symm

end Pointer
