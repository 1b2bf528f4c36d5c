import Mathlib.Algebra.Order.BigOperators.Group.List
import CommonFabric.FieldOrder
import CommonFabric.JsonText

/-!
# The wire text of a value

A value's tree writes what JSON has no form for under a tag, which is a record of one key
that starts with a slash, and a record with such keys of its own under an escape.
-/

namespace WireText

open JsonText

/-- The tag every encoded message starts with. -/
def WIRE_TAG : JsString := "fvj1:"

/-- The bytes of an integer in as few bytes of two's complement as hold it, the first byte
first. -/
def bigintToMinimalTwosComplement (value : Int) : List Nat :=
  let size := if value < 0 then (-value - 1).toNat else value.toNat
  let bits := if size = 0 then 0 else Nat.log2 size + 1
  let length := bits / 8 + 1
  let residue := (value % (2 ^ (8 * length) : Nat)).toNat
  (List.range length).reverse.map fun i => residue / 256 ^ i % 256

def base64urlUnit (n : Nat) : UInt16 :=
  if n < 26 then unit 'A' + n.toUInt16
  else if n < 52 then unit 'a' + (n - 26).toUInt16
  else if n < 62 then unit '0' + (n - 52).toUInt16
  else if n = 62 then unit '-' else unit '_'

example : base64urlUnit 62 = unit '-' := by decide +kernel

def toUnpaddedBase64url : List Nat → List UInt16
  | [] => []
  | [a] => [base64urlUnit (a / 4), base64urlUnit (a % 4 * 16)]
  | [a, b] => [base64urlUnit (a / 4), base64urlUnit (a % 4 * 16 + b / 16),
      base64urlUnit (b % 16 * 4)]
  | a :: b :: c :: rest => base64urlUnit (a / 4) :: base64urlUnit (a % 4 * 16 + b / 16) ::
      base64urlUnit (b % 16 * 4 + c / 64) :: base64urlUnit (c % 64) :: toUnpaddedBase64url rest

def bigintToUnpaddedBase64url (value : Int) : JsString :=
  ⟨toUnpaddedBase64url (bigintToMinimalTwosComplement value)⟩

def wrapTag (tag : JsString) (state : Json) : Json := .object [(.append "/" tag, state)]

def anySlashKey (fields : List (JsString × FabricValue)) : Bool :=
  fields.any fun field => field.1.startsWith "/"

def encodeNumber : JsNumber → Json
  | .finite q => .number q
  | .negZero => wrapTag "SpecialNumber@1" (.string "-0")
  | .infinity negative =>
    wrapTag "SpecialNumber@1" (.string (if negative then "-Infinity" else "+Infinity"))
  | .nan => wrapTag "SpecialNumber@1" (.string "NaN")

mutual
/-- A value as JSON has it, when nothing in it needs a tag: what a quote can hold. -/
def literal : FabricValue → Option Json
  | .null => some .null
  | .bool b => some (.bool b)
  | .number (.finite q) => some (.number q)
  | .string s => some (.string s)
  | .array slots => (literalSlots slots).map .array
  | .record fields => (literalFields fields).map .object
  | _ => none

def literalSlots : List (Option FabricValue) → Option (List Json)
  | [] => some []
  | none :: _ => none
  | some value :: rest => do return (← literal value) :: (← literalSlots rest)

def literalFields : List (JsString × FabricValue) → Option (List (JsString × Json))
  | [] => some []
  | (key, value) :: rest => do return (key, ← literal value) :: (← literalFields rest)
end

/-- A run of holes, if there is one. -/
def holes (count : Nat) : List Json :=
  if count = 0 then [] else [wrapTag "hole" (.number count)]

mutual
/-- The members stand in the order of the record's keys. The codec has an order of its own,
and nothing here reads it. -/
def encodeValue : FabricValue → Json
  | .undefined => wrapTag "Undefined@1" .null
  | .null => .null
  | .bool b => .bool b
  | .number n => encodeNumber n
  | .string s => .string s
  | .bigint i => wrapTag "BigInt@1" (.string (bigintToUnpaddedBase64url i))
  | .symbol key => wrapTag "Symbol@1" (.string key)
  | .array slots => .array (encodeSlots 0 slots)
  | .record fields =>
    if anySlashKey fields then
      match literalFields fields with
      | some members => .object [("/quote", .object members)]
      | none => wrapTag "object" (.object (encodeFields fields))
    else .object (encodeFields fields)
  | .special tag state => wrapTag tag (encodeValue state)

/-- The slots of an array, `count` holes before them. -/
def encodeSlots (count : Nat) : List (Option FabricValue) → List Json
  | [] => holes count
  | none :: rest => encodeSlots (count + 1) rest
  | some value :: rest => holes count ++ encodeValue value :: encodeSlots 0 rest

def encodeFields : List (JsString × FabricValue) → List (JsString × Json)
  | [] => []
  | (key, value) :: rest => (key, encodeValue value) :: encodeFields rest
end

/-- `encodeMemoryBoundary`: the text a message is sent as. -/
def encodeMemoryBoundary (value : FabricValue) : JsString :=
  .append WIRE_TAG ⟨render (encodeValue value)⟩

/-- An array with no hole encodes item by item. -/
theorem encodeSlots_some (values : List FabricValue) :
    encodeSlots 0 (values.map some) = values.map encodeValue := by
  induction values with
  | nil => rfl
  | cons value rest ih => rw [List.map_cons, List.map_cons, encodeSlots, ih]; rfl

/-- What a member adds to its record's bytes: its key, a colon, its value and a comma. -/
def memberBytes (key : JsString) (value : FabricValue) : Nat :=
  utf8Length (quoted key) + 1 + (encodeValue value).bytes + 1

theorem bytes_record {fields : List (JsString × FabricValue)} (h : anySlashKey fields = false) :
    (encodeValue (.record fields)).bytes = 2 + (Fields.weight memberBytes fields - 1) := by
  have hsum (fields : List (JsString × FabricValue)) :
      Json.memberBytes (encodeFields fields) = Fields.weight memberBytes fields := by
    induction fields with
    | nil => rfl
    | cons field fields ih =>
      obtain ⟨key, value⟩ := field
      simp only [encodeFields, Json.memberBytes, Fields.weight, List.map_cons, List.sum_cons] at ih ⊢
      rw [ih]
      rfl
  rw [encodeValue, h]
  simp only [Bool.false_eq_true, if_false, Json.bytes, hsum]

theorem bytes_array (list : List FabricValue) :
    (encodeValue (.array (list.map some))).bytes =
      2 + ((list.map fun x => (encodeValue x).bytes + 1).sum - 1) := by
  have hsum (list : List FabricValue) : Json.itemBytes (list.map encodeValue) =
      (list.map fun x => (encodeValue x).bytes + 1).sum := by
    induction list with
    | nil => rfl
    | cons x list ih => simp only [List.map_cons, List.sum_cons, Json.itemBytes, ih]
  rw [encodeValue, encodeSlots_some, Json.bytes, hsum]

end WireText
