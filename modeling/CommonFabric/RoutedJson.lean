import CommonFabric.JsonParse
import CommonFabric.Utf8Text

/-!
# Bounded JSON of routed frames

Before a routed frame is parsed, a scan of its text refuses what is nested or numerous past its
bounds, names a member twice or holds a lone surrogate.
-/

namespace RoutedJson

open JsonText

/-- Most nesting of values. -/
def ROUTED_DEPTH_LIMIT : Nat := 64

/-- Most code units of an expanded frame. -/
def ROUTED_EXPANDED_LIMIT : Nat := 16 * 1024 * 1024

/-- A string up to its closing quote, from after its opening one. -/
def quotedSlice : List UInt16 → Option (List UInt16 × List UInt16)
  | [] => none
  | c :: rest =>
    if c = unit '\\' then
      match rest with
      | [] => none
      | d :: rest => (quotedSlice rest).map fun (slice, rest) => (c :: d :: slice, rest)
    else if c = unit '"' then some ([c], rest)
    else (quotedSlice rest).map fun (slice, rest) => (c :: slice, rest)

/-- A string that is JSON by itself and holds no lone surrogate. -/
def scanString : List UInt16 → Option (JsString × List UInt16)
  | [] => none
  | c :: rest =>
    if c ≠ unit '"' then none
    else do
      let (slice, rest) ← quotedSlice rest
      match parse (c :: slice) with
      | some (.string s) => if Bytes.WellFormed s.units then some (s, rest) else none
      | _ => none

/-- A character that ends a scalar. -/
def isDelimiter (u : UInt16) : Bool :=
  isSpace u || u = unit ',' || u = unit ']' || u = unit '\x7d'

/-- A constant or a number, which is all up to a delimiter. -/
def scanScalar (text : List UInt16) : Option (List UInt16) :=
  match parse (text.takeWhile fun u => !isDelimiter u) with
  | some .null | some (.bool _) | some (.number _) => some (text.dropWhile fun u => !isDelimiter u)
  | _ => none

def forbiddenKeys : List JsString := ["__proto__", "constructor", "prototype"]

/-- The values counted with one more, unless they are too many or too deep. -/
def countSlot (maxSlots : Option Nat) (depth slots : Nat) : Option Nat :=
  match maxSlots with
  | none => if depth ≤ ROUTED_DEPTH_LIMIT then some slots else none
  | some most =>
    if depth ≤ ROUTED_DEPTH_LIMIT ∧ slots + 1 ≤ most then some (slots + 1) else none

mutual
/-- A value, with the number of values before it. -/
def scanValue (maxSlots : Option Nat) : Nat → Nat → Nat → List UInt16 →
    Option (Nat × List UInt16)
  | 0, _, _, _ => none
  | fuel + 1, depth, slots, text => do
    let slots ← countSlot maxSlots depth slots
    match skipSpace text with
    | [] => none
    | u :: rest =>
      if u = unit '"' then (scanString (u :: rest)).map fun (_, rest) => (slots, rest)
      else if u = unit '\x7b' then
        if (skipSpace rest).head? = some (unit '\x7d') then some (slots, (skipSpace rest).tail)
        else scanMembers maxSlots fuel depth slots [] rest
      else if u = unit '[' then
        if (skipSpace rest).head? = some (unit ']') then some (slots, (skipSpace rest).tail)
        else scanItems maxSlots fuel depth slots rest
      else (scanScalar (u :: rest)).map fun rest => (slots, rest)

/-- The items of an array at a depth. -/
def scanItems (maxSlots : Option Nat) : Nat → Nat → Nat → List UInt16 →
    Option (Nat × List UInt16)
  | 0, _, _, _ => none
  | fuel + 1, depth, slots, text => do
    let (slots, rest) ← scanValue maxSlots fuel (depth + 1) slots text
    match skipSpace rest with
    | [] => none
    | u :: rest =>
      if u = unit ']' then some (slots, rest)
      else if u = unit ',' then scanItems maxSlots fuel depth slots rest
      else none

/-- The members of an object at a depth, with the names of those before. -/
def scanMembers (maxSlots : Option Nat) : Nat → Nat → Nat → List JsString → List UInt16 →
    Option (Nat × List UInt16)
  | 0, _, _, _, _ => none
  | fuel + 1, depth, slots, keys, text => do
    let (key, rest) ← scanString (skipSpace text)
    if key ∈ keys ∨ key ∈ forbiddenKeys then none
    else
      match skipSpace rest with
      | [] => none
      | u :: rest =>
        if u ≠ unit ':' then none
        else do
          let (slots, rest) ← scanValue maxSlots fuel (depth + 1) slots rest
          match skipSpace rest with
          | [] => none
          | u :: rest =>
            if u = unit '\x7d' then some (slots, rest)
            else if u = unit ',' then scanMembers maxSlots fuel depth slots (key :: keys) rest
            else none
end

/-- A cap is absent or a positive safe integer. -/
def isSlotCap : Option Nat → Bool
  | none => true
  | some most => 0 < most && most ≤ 2 ^ 53 - 1

/-- `parseRoutedJson`. -/
def parseRoutedJson (source : List UInt16) (maxSlots : Option Nat) : Option Json :=
  if isSlotCap maxSlots = false then none
  else if ROUTED_EXPANDED_LIMIT < source.length then none
  else
    match scanValue maxSlots (source.length + 1) 0 0 source with
    | some (_, rest) => if skipSpace rest = [] then parse source else none
    | none => none

theorem quotedSlice_plain {u : UInt16} (hslash : u ≠ unit '\\') (hquote : u ≠ unit '"')
    (rest : List UInt16) :
    quotedSlice (u :: rest) = (quotedSlice rest).map fun (slice, rest) => (u :: slice, rest) := by
  rw [quotedSlice.eq_def]
  dsimp only
  rw [if_neg hslash, if_neg hquote]

theorem quotedSlice_escaped (v : UInt16) (rest : List UInt16) :
    quotedSlice (unit '\\' :: v :: rest) =
      (quotedSlice rest).map fun (slice, rest) => (unit '\\' :: v :: slice, rest) := by
  rw [quotedSlice.eq_def]
  dsimp only
  rw [if_pos rfl]

theorem quotedSlice_quote (rest : List UInt16) :
    quotedSlice (unit '"' :: rest) = some ([unit '"'], rest) := by
  rw [quotedSlice.eq_def]
  dsimp only
  rw [if_neg (by decide), if_pos rfl]

/-- What a scalar may be followed by. -/
def EndsScalar (rest : List UInt16) : Prop := ∀ u ∈ rest.head?, isDelimiter u = true

theorem endsScalar_cons {u : UInt16} (h : isDelimiter u = true) (rest : List UInt16) :
    EndsScalar (u :: rest) := by
  intro v hv
  rw [List.head?_cons, Option.mem_some_iff] at hv
  rw [← hv]
  exact h

/-- Trees that are scalars and not strings. -/
def isScalar : Json → Bool
  | .null | .bool _ | .number _ => true
  | _ => false

theorem isDelimiter_of_isNumeric {u : UInt16} (h : isNumeric u = true) : isDelimiter u = false := by
  rw [isDelimiter, isSpace_of_isNumeric h]
  simp only [Bool.false_or, Bool.or_eq_false_iff, decide_eq_false_iff_not]
  exact ⟨⟨isNumeric_ne h (by decide), isNumeric_ne h (by decide)⟩, isNumeric_ne h (by decide)⟩

theorem forall_of_all {units : List UInt16} (h : units.all (!isDelimiter ·) = true) :
    ∀ u ∈ units, isDelimiter u = false := by
  intro u hu
  simpa using List.all_eq_true.1 h u hu

theorem endsScalar_nil : EndsScalar [] := by
  intro u hu
  cases hu

end RoutedJson
