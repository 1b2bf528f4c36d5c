import Mathlib.Algebra.Order.Ring.Rat
import Mathlib.Data.Nat.Cast.Order.Basic

/-!
# JavaScript strings and numbers, and the values a document holds

A string is its sequence of UTF-16 code units, lone surrogates included. A
number is a double: the finite ones are carried by the rational they denote,
beside negative zero, the two infinities and NaN. A `FabricValue` is what a
stored document may hold. A record lists its members by key, in code unit
order, so that two records with the same members are the same value, as they
are to `valueEqual`.
-/

structure JsString where
  units : List UInt16
  deriving DecidableEq, Repr

namespace JsString

/-- The UTF-16 code units of one Unicode character. -/
def unitsOfChar (c : Char) : List UInt16 :=
  if c.toNat < 0x10000 then [c.toNat.toUInt16]
  else [(0xD800 + (c.toNat - 0x10000) / 0x400).toUInt16,
    (0xDC00 + (c.toNat - 0x10000) % 0x400).toUInt16]

def ofString (s : String) : JsString := ⟨s.toList.flatMap unitsOfChar⟩

instance : Coe String JsString := ⟨ofString⟩

def startsWith (s pre : JsString) : Bool := pre.units.isPrefixOf s.units

def append (s t : JsString) : JsString := ⟨s.units ++ t.units⟩

def concat (parts : List JsString) : JsString := ⟨parts.flatMap (·.units)⟩

/-- `s.slice(n)`. -/
def slice (s : JsString) (n : Nat) : JsString := ⟨s.units.drop n⟩

def ltUnits : List UInt16 → List UInt16 → Bool
  | _, [] => false
  | [], _ :: _ => true
  | x :: xs, y :: ys => x < y || (x = y && ltUnits xs ys)

/-- The code unit order of strings. -/
def lt (s t : JsString) : Bool := ltUnits s.units t.units

/-- A text up to its first separator is determined by the joined text. -/
theorem append_separator_inj {separator : UInt16} {a a' b b' : List UInt16} (ha : separator ∉ a)
    (ha' : separator ∉ a') (h : a ++ separator :: b = a' ++ separator :: b') : a = a' ∧ b = b' := by
  induction a generalizing a' with
  | nil =>
    cases a' with
    | nil => exact ⟨rfl, List.tail_eq_of_cons_eq h⟩
    | cons x a' =>
      exact absurd (List.head_eq_of_cons_eq h ▸ List.mem_cons_self) ha'
  | cons x a ih =>
    cases a' with
    | nil => exact absurd (List.head_eq_of_cons_eq h ▸ List.mem_cons_self) ha
    | cons y a' =>
      rw [List.cons_append, List.cons_append] at h
      obtain ⟨h₁, h₂⟩ := ih (fun hm => ha (List.mem_cons_of_mem _ hm))
        (fun hm => ha' (List.mem_cons_of_mem _ hm)) (List.tail_eq_of_cons_eq h)
      exact ⟨by rw [h₁, List.head_eq_of_cons_eq h], h₂⟩

end JsString

/-- A double. `finite` holds the value of every finite double but negative zero. -/
inductive JsNumber where
  | finite (value : ℚ)
  | negZero
  | infinity (negative : Bool)
  | nan
  deriving DecidableEq

namespace JsNumber

/-- The multiple of `2 ^ e` nearest to `n / d`, ties to the even multiple, as a
multiplier of `2 ^ e`. -/
def nearest (n d : Nat) (e : Int) : Nat :=
  let num := if e < 0 then n * 2 ^ (-e).toNat else n
  let den := if e < 0 then d else d * 2 ^ e.toNat
  let m := num / den
  let twice := 2 * (num % den)
  if twice < den then m
  else if den < twice then m + 1
  else if m % 2 = 0 then m else m + 1

/-- The double nearest to a rational, as IEEE 754 rounds the exact result of an
operation: 53 significant bits, no exponent below `-1074`, overflow to infinity. -/
def round (q : ℚ) : JsNumber :=
  let n := q.num.natAbs
  let guess : Int := (Nat.log2 n : Int) - Nat.log2 q.den
  let exponent := if guess < 0 then
      if n * 2 ^ (-guess).toNat < q.den then guess - 1 else guess
    else if n < q.den * 2 ^ guess.toNat then guess - 1 else guess
  let e := max (exponent - 52) (-1074)
  let m := nearest n q.den e
  let magnitude : ℚ := if e < 0 then (m : ℚ) / (2 ^ (-e).toNat : Nat) else m * (2 ^ e.toNat : Nat)
  if (2 ^ 1024 : Nat) ≤ magnitude then .infinity (decide (q < 0))
  else .finite (if q < 0 then -magnitude else magnitude)

/-- The `+` of two numbers. -/
def add : JsNumber → JsNumber → JsNumber
  | .nan, _ => .nan
  | _, .nan => .nan
  | .infinity a, .infinity b => if a = b then .infinity a else .nan
  | .infinity a, _ => .infinity a
  | _, .infinity b => .infinity b
  | .negZero, y => y
  | x, .negZero => x
  | .finite a, .finite b => round (a + b)

def isFinite : JsNumber → Bool
  | .finite _ => true
  | .negZero => true
  | _ => false

/-- `x === 0`, which holds of both zeroes. -/
def isZero : JsNumber → Bool
  | .finite q => q = 0
  | .negZero => true
  | _ => false

/-- The number a non-negative integer of the engine becomes in a document. -/
def ofNat (n : Nat) : JsNumber := .finite n

/-- `x > y`. -/
def gt : JsNumber → JsNumber → Bool
  | .nan, _ => false
  | _, .nan => false
  | .infinity a, .infinity b => !a && b
  | .infinity a, _ => !a
  | _, .infinity b => b
  | .finite a, .finite b => b < a
  | .finite a, .negZero => 0 < a
  | .negZero, .finite b => b < 0
  | .negZero, .negZero => false

theorem ofNat_injective {m n : Nat} (h : ofNat m = ofNat n) : m = n := by
  simpa [ofNat] using h

end JsNumber

inductive FabricValue where
  | undefined
  | null
  | bool (b : Bool)
  | number (n : JsNumber)
  | string (s : JsString)
  | bigint (i : Int)
  | symbol (key : JsString)
  /-- An array by its slots; a slot that is `none` is a hole. -/
  | array (slots : List (Option FabricValue))
  /-- A plain object. -/
  | record (fields : List (JsString × FabricValue))
  /-- An instance of a registered class, by its codec's tag and state. -/
  | special (tag : JsString) (state : FabricValue)

namespace FabricValue

mutual
def beq : FabricValue → FabricValue → Bool
  | .undefined, .undefined => true
  | .null, .null => true
  | .bool a, .bool b => a == b
  | .number a, .number b => a = b
  | .string a, .string b => a = b
  | .bigint a, .bigint b => a == b
  | .symbol a, .symbol b => a = b
  | .array a, .array b => beqSlots a b
  | .record a, .record b => beqFields a b
  | .special t a, .special u b => t = u && beq a b
  | _, _ => false

def beqSlots : List (Option FabricValue) → List (Option FabricValue) → Bool
  | [], [] => true
  | none :: xs, none :: ys => beqSlots xs ys
  | some x :: xs, some y :: ys => beq x y && beqSlots xs ys
  | _, _ => false

def beqFields : List (JsString × FabricValue) → List (JsString × FabricValue) → Bool
  | [], [] => true
  | (k, x) :: xs, (l, y) :: ys => k = l && beq x y && beqFields xs ys
  | _, _ => false
end

mutual
theorem beq_iff : (a b : FabricValue) → (beq a b = true ↔ a = b)
  | .undefined, b => by cases b <;> simp [beq]
  | .null, b => by cases b <;> simp [beq]
  | .bool a, b => by cases b <;> simp [beq]
  | .number a, b => by cases b <;> simp [beq]
  | .string a, b => by cases b <;> simp [beq]
  | .bigint a, b => by cases b <;> simp [beq]
  | .symbol a, b => by cases b <;> simp [beq]
  | .array a, b => by
    cases b with
    | array b => simpa [beq] using beqSlots_iff a b
    | _ => simp [beq]
  | .record a, b => by
    cases b with
    | record b => simpa [beq] using beqFields_iff a b
    | _ => simp [beq]
  | .special t a, b => by
    cases b with
    | special u b => simp [beq, beq_iff a b]
    | _ => simp [beq]

theorem beqSlots_iff : (a b : List (Option FabricValue)) → (beqSlots a b = true ↔ a = b)
  | [], b => by cases b <;> simp [beqSlots]
  | none :: xs, b => by
    cases b with
    | nil => simp [beqSlots]
    | cons y ys => cases y <;> simp [beqSlots, beqSlots_iff xs]
  | some x :: xs, b => by
    cases b with
    | nil => simp [beqSlots]
    | cons y ys => cases y <;> simp [beqSlots, beq_iff x, beqSlots_iff xs]

theorem beqFields_iff : (a b : List (JsString × FabricValue)) → (beqFields a b = true ↔ a = b)
  | [], b => by cases b <;> simp [beqFields]
  | (k, x) :: xs, b => by
    cases b with
    | nil => simp [beqFields]
    | cons y ys => simp [beqFields, beq_iff x, beqFields_iff xs, Prod.ext_iff]
end

instance : DecidableEq FabricValue := fun a b => decidable_of_iff _ (beq_iff a b)

end FabricValue

/-- `valueEqual`: canonical content equality. -/
def valueEqual (a b : FabricValue) : Bool := decide (a = b)

namespace Fields

def get? (fields : List (JsString × FabricValue)) (key : JsString) : Option FabricValue :=
  (fields.find? fun f => f.1 = key).map (·.2)

/-- Assignment, at the place the key order gives the member. -/
def set : List (JsString × FabricValue) → JsString → FabricValue →
    List (JsString × FabricValue)
  | [], key, v => [(key, v)]
  | (k, x) :: rest, key, v =>
    if k = key then (key, v) :: rest
    else if key.lt k then (key, v) :: (k, x) :: rest
    else (k, x) :: set rest key v

def erase (fields : List (JsString × FabricValue)) (key : JsString) :
    List (JsString × FabricValue) := fields.filter fun f => f.1 ≠ key

@[simp] theorem get?_nil (key : JsString) : get? [] key = none := rfl

theorem get?_cons (k : JsString) (x : FabricValue) (rest : List (JsString × FabricValue))
    (key : JsString) : get? ((k, x) :: rest) key = if k = key then some x else get? rest key := by
  by_cases h : k = key <;> simp [get?, h]

theorem get?_set (fields : List (JsString × FabricValue)) (key key' : JsString)
    (v : FabricValue) :
    get? (set fields key v) key' = if key = key' then some v else get? fields key' := by
  induction fields with
  | nil => simp [set, get?_cons]
  | cons f rest ih =>
    obtain ⟨k, x⟩ := f
    by_cases hk : k = key
    · subst hk; simp [set, get?_cons]; split <;> rfl
    · simp only [set, hk, if_false]
      split
      · rw [get?_cons]
      · simp only [get?_cons, ih]
        by_cases hk' : k = key'
        · subst hk'; simp [Ne.symm hk]
        · simp [hk']

theorem get?_erase (fields : List (JsString × FabricValue)) (key key' : JsString) :
    get? (erase fields key) key' = if key = key' then none else get? fields key' := by
  induction fields with
  | nil => simp [erase]
  | cons f rest ih =>
    obtain ⟨k, x⟩ := f
    have ih' : get? (List.filter (fun f => decide (f.1 ≠ key)) rest) key' =
        if key = key' then none else get? rest key' := ih
    by_cases hk : k = key
    · subst hk
      simp only [erase, ne_eq, decide_not, List.filter_cons, decide_true, Bool.not_true,
        Bool.false_eq_true, if_false, get?_cons] at ih' ⊢
      rw [ih']; split <;> rfl
    · simp only [erase, ne_eq, decide_not, List.filter_cons, hk, decide_false, Bool.not_false,
        if_true, get?_cons] at ih' ⊢
      rw [ih']
      by_cases hk' : k = key'
      · subst hk'; simp [Ne.symm hk]
      · simp [hk']

end Fields
