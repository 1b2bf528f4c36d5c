import CommonFabric.JsonParse
import CommonFabric.TextReaders

/-!
# JSON texts as they are written

A text is read to a tree that keeps all that is written: every member of an object, names used
twice included, and numbers past every bound. `JSON.parse` gives the value of that tree.
-/

/-- A JSON text's tree, with every member an object is written with. -/
inductive WrittenJson where
  | null
  | bool (b : Bool)
  | number (n : JsNumber)
  | string (s : JsString)
  | array (items : List WrittenJson)
  | object (members : List (JsString × WrittenJson))

namespace JsonText

/-- A constant or a number, and what follows it. -/
def readScalar (text : List UInt16) : Option (WrittenJson × List UInt16) :=
  if ("null".toList.map unit).isPrefixOf text then some (.null, text.drop 4)
  else if ("true".toList.map unit).isPrefixOf text then some (.bool true, text.drop 4)
  else if ("false".toList.map unit).isPrefixOf text then some (.bool false, text.drop 5)
  else (parseNumber text).map fun (number, rest) => (.number number, rest)

mutual
/-- A value as it is written, and what follows it. -/
def readValue : Nat → List UInt16 → Option (WrittenJson × List UInt16)
  | 0, _ => none
  | fuel + 1, text =>
    match skipSpace text with
    | [] => none
    | u :: rest =>
      if u = unit '"' then (parseUnits rest).map fun (units, rest) => (.string ⟨units⟩, rest)
      else if u = unit '[' then
        if (skipSpace rest).head? = some (unit ']') then some (.array [], (skipSpace rest).tail)
        else (readItems fuel rest).map fun (items, rest) => (.array items, rest)
      else if u = unit '\x7b' then
        if (skipSpace rest).head? = some (unit '\x7d') then
          some (.object [], (skipSpace rest).tail)
        else (readMembers fuel rest).map fun (members, rest) => (.object members, rest)
      else readScalar (u :: rest)

def readItems : Nat → List UInt16 → Option (List WrittenJson × List UInt16)
  | 0, _ => none
  | fuel + 1, text => do
    let (item, rest) ← readValue fuel text
    match skipSpace rest with
    | [] => none
    | u :: rest =>
      if u = unit ']' then some ([item], rest)
      else if u = unit ',' then (readItems fuel rest).map fun (items, rest) => (item :: items, rest)
      else none

def readMembers : Nat → List UInt16 → Option (List (JsString × WrittenJson) × List UInt16)
  | 0, _ => none
  | fuel + 1, text =>
    match skipSpace text with
    | [] => none
    | u :: rest =>
      if u ≠ unit '"' then none
      else do
        let (key, rest) ← parseUnits rest
        match skipSpace rest with
        | [] => none
        | u :: rest =>
          if u ≠ unit ':' then none
          else do
            let (value, rest) ← readValue fuel rest
            match skipSpace rest with
            | [] => none
            | u :: rest =>
              if u = unit '\x7d' then some ([(⟨key⟩, value)], rest)
              else if u = unit ',' then
                (readMembers fuel rest).map fun (members, rest) => ((⟨key⟩, value) :: members, rest)
              else none
end

/-- The tree of a whole text. -/
def readText (text : List UInt16) : Option WrittenJson :=
  match readValue (text.length + 1) text with
  | some (tree, rest) => if skipSpace rest = [] then some tree else none
  | none => none

end JsonText

namespace WrittenJson

open JsonText

mutual
/-- The value of a tree, in which a member stands in place of an earlier one of its name. -/
def value : WrittenJson → Option Json
  | .null => some .null
  | .bool b => some (.bool b)
  | .number n => numberTree n
  | .string s => some (.string s)
  | .array items => (valueItems items).map .array
  | .object members => (valueMembers members).map fun members => .object (objectOf members)

def valueItems : List WrittenJson → Option (List Json)
  | [] => some []
  | item :: rest => do
    let item ← value item
    let rest ← valueItems rest
    some (item :: rest)

def valueMembers : List (JsString × WrittenJson) → Option (List (JsString × Json))
  | [] => some []
  | (key, item) :: rest => do
    let item ← value item
    let rest ← valueMembers rest
    some ((key, item) :: rest)
end

mutual
/-- Every value in a tree at a depth, with its depth. -/
def parts (depth : Nat) : WrittenJson → List (Nat × WrittenJson)
  | .null => [(depth, .null)]
  | .bool b => [(depth, .bool b)]
  | .number n => [(depth, .number n)]
  | .string s => [(depth, .string s)]
  | .array items => (depth, .array items) :: partsItems (depth + 1) items
  | .object members => (depth, .object members) :: partsMembers (depth + 1) members

def partsItems (depth : Nat) : List WrittenJson → List (Nat × WrittenJson)
  | [] => []
  | item :: rest => parts depth item ++ partsItems depth rest

def partsMembers (depth : Nat) : List (JsString × WrittenJson) → List (Nat × WrittenJson)
  | [] => []
  | (_, item) :: rest => parts depth item ++ partsMembers depth rest
end

end WrittenJson

namespace JsonText

theorem parseScalar_eq (u : UInt16) (rest : List UInt16) :
    (if ("null".toList.map unit).isPrefixOf (u :: rest) then some (Json.null, rest.drop 3)
      else if ("true".toList.map unit).isPrefixOf (u :: rest) then some (.bool true, rest.drop 3)
      else if ("false".toList.map unit).isPrefixOf (u :: rest) then
        some (.bool false, rest.drop 4)
      else do
        let (number, rest) ← parseNumber (u :: rest)
        (numberTree number).map fun tree => (tree, rest)) =
      (readScalar (u :: rest)).bind fun (tree, rest) => tree.value.map (·, rest) := by
  unfold readScalar
  split
  · rfl
  split
  · rfl
  split
  · rfl
  cases parseNumber (u :: rest) <;> rfl

/-- What stands after one element, where the elements after it are read and then valued. -/
theorem parseElements_eq {α β : Type} {close : UInt16} {element : α} {value : Option Json}
    (wrap : Json → β) (valueAll : List α → Option (List β))
    (hall : ∀ elements, valueAll (element :: elements) =
      value.bind fun v => (valueAll elements).map (wrap v :: ·)) (hnil : valueAll [] = some [])
    {parseMore : List UInt16 → Option (List β × List UInt16)}
    {readMore : List UInt16 → Option (List α × List UInt16)}
    (hmore : ∀ text, parseMore text =
      (readMore text).bind fun (elements, rest) => (valueAll elements).map (·, rest))
    (rest : List UInt16) :
    ((value.map (·, rest)).bind fun (v, rest) => match skipSpace rest with
      | [] => none
      | u :: rest =>
        if u = close then some ([wrap v], rest)
        else if u = unit ',' then (parseMore rest).map fun (vs, rest) => (wrap v :: vs, rest)
        else none) =
    (match skipSpace rest with
      | [] => none
      | u :: rest =>
        if u = close then some ([element], rest)
        else if u = unit ',' then
          (readMore rest).map fun (elements, rest) => (element :: elements, rest)
        else none).bind fun (elements, rest) => (valueAll elements).map (·, rest) := by
  cases value with
  | none =>
    rw [Option.map_none, Option.bind_none]
    cases skipSpace rest with
    | nil => rfl
    | cons u rest =>
      dsimp only
      split
      · simp [hall]
      split
      · cases readMore rest <;> simp [hall]
      · rfl
  | some v =>
    rw [Option.map_some, Option.bind_some]
    dsimp only
    cases skipSpace rest with
    | nil => rfl
    | cons u rest =>
      dsimp only
      split
      · simp [hall, hnil]
      split
      · rw [hmore]
        cases readMore rest with
        | none => rfl
        | some r =>
          simp only [Option.bind_some, Option.map_some, hall, Option.map_map]
          rfl
      · rfl

/-- Parsing reads the text as it is written and takes the value of the tree. -/
theorem parse_steps (fuel : Nat) :
    (∀ text, parseValue fuel text =
      (readValue fuel text).bind fun (tree, rest) => tree.value.map (·, rest)) ∧
    (∀ text, parseItems fuel text =
      (readItems fuel text).bind fun (items, rest) =>
        (WrittenJson.valueItems items).map (·, rest)) ∧
    ∀ text, parseMembers fuel text =
      (readMembers fuel text).bind fun (members, rest) =>
        (WrittenJson.valueMembers members).map (·, rest) := by
  induction fuel with
  | zero => exact ⟨fun _ => rfl, fun _ => rfl, fun _ => rfl⟩
  | succ fuel ih =>
    obtain ⟨ihValue, ihItems, ihMembers⟩ := ih
    refine ⟨fun text => ?_, fun text => ?_, fun text => ?_⟩
    · rw [parseValue, readValue]
      cases skipSpace text with
      | nil => rfl
      | cons u rest =>
        dsimp only
        split
        · cases parseUnits rest <;> rfl
        split
        · split
          · rfl
          rw [ihItems]
          cases readItems fuel rest with
          | none => rfl
          | some r =>
            simp only [Option.bind_some, Option.map_some, WrittenJson.value, Option.map_map]
            rfl
        split
        · split
          · rfl
          rw [ihMembers]
          cases readMembers fuel rest with
          | none => rfl
          | some r =>
            simp only [Option.bind_some, Option.map_some, WrittenJson.value, Option.map_map]
            rfl
        exact parseScalar_eq u rest
    · rw [parseItems, readItems, ihValue]
      cases readValue fuel text with
      | none => rfl
      | some r =>
        refine parseElements_eq id WrittenJson.valueItems (fun items => ?_) rfl ihItems r.2
        rw [WrittenJson.valueItems]
        cases r.1.value with
        | none => rfl
        | some v => cases WrittenJson.valueItems items <;> rfl
    · rw [parseMembers, readMembers]
      cases skipSpace text with
      | nil => rfl
      | cons u rest =>
        dsimp only
        split
        · rfl
        simp only [Option.bind_eq_bind]
        cases parseUnits rest with
        | none => rfl
        | some r =>
          obtain ⟨key, rest⟩ := r
          simp only [Option.bind_some]
          cases skipSpace rest with
          | nil => rfl
          | cons u rest =>
            dsimp only
            split
            · rfl
            rw [ihValue]
            cases readValue fuel rest with
            | none => rfl
            | some r =>
              refine parseElements_eq (fun v => (⟨key⟩, v)) WrittenJson.valueMembers
                (fun members => ?_) rfl ihMembers r.2
              rw [WrittenJson.valueMembers]
              cases r.1.value with
              | none => rfl
              | some v => cases WrittenJson.valueMembers members <;> rfl

/-- `JSON.parse` is the value of the tree that is written. -/
theorem parse_eq (text : List UInt16) : parse text = (readText text).bind WrittenJson.value := by
  rw [parse, readText, (parse_steps (text.length + 1)).1 text]
  cases readValue (text.length + 1) text with
  | none => rfl
  | some r =>
    obtain ⟨tree, rest⟩ := r
    rw [Option.bind_some]
    dsimp only
    cases htree : tree.value <;> by_cases hrest : skipSpace rest = [] <;> simp [hrest, htree]

end JsonText
