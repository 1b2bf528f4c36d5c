import CommonFabric.JsonText
import Mathlib.Data.Nat.Digits.Lemmas

/-!
# Reading JSON text

`JSON.parse`, as a descent over the code units of a text that leaves what it did not take. The
digits of a number are read back, and what is plain in a string is read as it stands.
-/

namespace JsonText

def isDigit (u : UInt16) : Bool := unit '0' ≤ u && u ≤ unit '9'

/-- The value of a run of digits. -/
def ofDigits (digits : List UInt16) : Nat :=
  digits.foldl (fun n u => 10 * n + (u.toNat - 48)) 0

/-- The digits a text starts with, which are at least one, and what follows them. -/
def parseDigits (text : List UInt16) : Option (List UInt16 × List UInt16) :=
  if text.takeWhile isDigit = [] then none
  else some (text.takeWhile isDigit, text.dropWhile isDigit)

/-- Whether a text starts with a minus sign, and what follows it. -/
def parseMinus : List UInt16 → Bool × List UInt16
  | [] => (false, [])
  | u :: rest => if u = unit '-' then (true, rest) else (false, u :: rest)

def parseFraction : List UInt16 → Option (List UInt16 × List UInt16)
  | [] => some ([], [])
  | u :: rest => if u = unit '.' then parseDigits rest else some ([], u :: rest)

def parseExponent : List UInt16 → Option (Int × List UInt16)
  | [] => some (0, [])
  | u :: rest =>
    if u = unit 'e' ∨ u = unit 'E' then
      let (negative, rest) :=
        if rest.head? = some (unit '+') then (false, rest.tail) else parseMinus rest
      (parseDigits rest).map fun (ds, rest) =>
        (if negative then -(ofDigits ds : Int) else ofDigits ds, rest)
    else some (0, u :: rest)

/-- A number with no digits before its first zero but that zero. -/
def parseNumber (text : List UInt16) : Option (JsNumber × List UInt16) := do
  let (negative, text) := parseMinus text
  let (whole, text) ← parseDigits text
  if whole.head? = some (unit '0') ∧ whole.length ≠ 1 then none
  else
    let (fraction, text) ← parseFraction text
    let (exponent, text) ← parseExponent text
    let q := ofDigits (whole ++ fraction) * pow10 (exponent - fraction.length)
    some (if negative then (if q = 0 then .negZero else JsNumber.round (-q)) else JsNumber.round q,
      text)

def parseHexDigit (u : UInt16) : Option Nat :=
  if unit '0' ≤ u && u ≤ unit '9' then some (u.toNat - 48)
  else if unit 'a' ≤ u && u ≤ unit 'f' then some (u.toNat - 87)
  else if unit 'A' ≤ u && u ≤ unit 'F' then some (u.toNat - 55)
  else none

def parseHex (a b c d : UInt16) : Option UInt16 := do
  let a ← parseHexDigit a
  let b ← parseHexDigit b
  let c ← parseHexDigit c
  let d ← parseHexDigit d
  some (UInt16.ofNat (((a * 16 + b) * 16 + c) * 16 + d))

/-- The unit that a backslash and a letter stand for. -/
def parseEscape (u : UInt16) : Option UInt16 :=
  if u = unit '"' ∨ u = unit '\\' ∨ u = unit '/' then some u
  else if u = unit 'b' then some 8
  else if u = unit 't' then some 9
  else if u = unit 'n' then some 10
  else if u = unit 'f' then some 12
  else if u = unit 'r' then some 13
  else none

/-- The units of a string, from after its opening quote. -/
def parseUnits : List UInt16 → Option (List UInt16 × List UInt16)
  | [] => none
  | u :: rest =>
    if u = unit '"' then some ([], rest)
    else if u < 0x20 then none
    else if u ≠ unit '\\' then (parseUnits rest).map fun (units, rest) => (u :: units, rest)
    else match rest with
      | [] => none
      | v :: rest =>
        if v ≠ unit 'u' then do
          let escaped ← parseEscape v
          (parseUnits rest).map fun (units, rest) => (escaped :: units, rest)
        else match rest with
          | a :: b :: c :: d :: rest => do
            let escaped ← parseHex a b c d
            (parseUnits rest).map fun (units, rest) => (escaped :: units, rest)
          | _ => none

def isSpace (u : UInt16) : Bool := u = 0x20 || u = 9 || u = 10 || u = 13

def skipSpace (text : List UInt16) : List UInt16 := text.dropWhile isSpace

/-- The value of a number in a tree, which has neither an infinity nor a negative zero. -/
def numberTree : JsNumber → Option Json
  | .finite q => some (.number q)
  | .negZero => some (.number 0)
  | _ => none

/-- A member of an object, in place of one of the same name. -/
def assignMember (key : JsString) (value : Json) :
    List (JsString × Json) → List (JsString × Json)
  | [] => [(key, value)]
  | (k, x) :: rest => if k = key then (k, value) :: rest else (k, x) :: assignMember key value rest

def objectOf (members : List (JsString × Json)) : List (JsString × Json) :=
  members.foldl (fun object member => assignMember member.1 member.2 object) []

mutual
/-- A value, and what follows it. -/
def parseValue : Nat → List UInt16 → Option (Json × List UInt16)
  | 0, _ => none
  | fuel + 1, text =>
    match skipSpace text with
    | [] => none
    | u :: rest =>
      if u = unit '"' then (parseUnits rest).map fun (units, rest) => (.string ⟨units⟩, rest)
      else if u = unit '[' then
        if (skipSpace rest).head? = some (unit ']') then some (.array [], (skipSpace rest).tail)
        else (parseItems fuel rest).map fun (items, rest) => (.array items, rest)
      else if u = unit '\x7b' then
        if (skipSpace rest).head? = some (unit '\x7d') then
          some (.object [], (skipSpace rest).tail)
        else (parseMembers fuel rest).map fun (members, rest) => (.object (objectOf members), rest)
      else if ("null".toList.map unit).isPrefixOf (u :: rest) then some (.null, rest.drop 3)
      else if ("true".toList.map unit).isPrefixOf (u :: rest) then some (.bool true, rest.drop 3)
      else if ("false".toList.map unit).isPrefixOf (u :: rest) then
        some (.bool false, rest.drop 4)
      else do
        let (number, rest) ← parseNumber (u :: rest)
        (numberTree number).map fun tree => (tree, rest)

/-- The items of an array, from after its bracket or a comma. -/
def parseItems : Nat → List UInt16 → Option (List Json × List UInt16)
  | 0, _ => none
  | fuel + 1, text => do
    let (item, rest) ← parseValue fuel text
    match skipSpace rest with
    | [] => none
    | u :: rest =>
      if u = unit ']' then some ([item], rest)
      else if u = unit ',' then (parseItems fuel rest).map fun (items, rest) => (item :: items, rest)
      else none

/-- The members of an object, from after its brace or a comma. -/
def parseMembers : Nat → List UInt16 → Option (List (JsString × Json) × List UInt16)
  | 0, _ => none
  | fuel + 1, text =>
    match skipSpace text with
    | [] => none
    | u :: rest =>
      if u ≠ unit '"' then none
      else do
        let (key, rest) ← parseUnits rest
        match skipSpace rest with
        | [] => none
        | u :: rest =>
          if u ≠ unit ':' then none
          else do
            let (value, rest) ← parseValue fuel rest
            match skipSpace rest with
            | [] => none
            | u :: rest =>
              if u = unit '\x7d' then some ([(⟨key⟩, value)], rest)
              else if u = unit ',' then
                (parseMembers fuel rest).map fun (members, rest) => ((⟨key⟩, value) :: members, rest)
              else none
end

/-- `JSON.parse`. The members of an object stand in the order of the text. -/
def parse (text : List UInt16) : Option Json :=
  match parseValue (text.length + 1) text with
  | some (tree, rest) => if skipSpace rest = [] then some tree else none
  | none => none

theorem isDigit_digit {d : Nat} (hd : d < 10) : isDigit (unit '0' + d.toUInt16) = true := by
  have h : ∀ e : Fin 10, isDigit (unit '0' + e.val.toUInt16) = true := by decide
  exact h ⟨d, hd⟩

theorem toNat_digit {d : Nat} (hd : d < 10) : (unit '0' + d.toUInt16).toNat - 48 = d := by
  have h : ∀ e : Fin 10, (unit '0' + e.val.toUInt16).toNat - 48 = e.val := by decide
  exact h ⟨d, hd⟩

theorem isDigit_digits (n : Nat) : ∀ u ∈ digits n, isDigit u = true := by
  intro u hu
  unfold digits at hu
  split at hu
  · obtain rfl := List.mem_singleton.1 hu
    decide
  · obtain ⟨d, hd, rfl⟩ := List.mem_map.1 hu
    exact isDigit_digit (Nat.digits_lt_base (by decide) (List.mem_reverse.1 hd))

theorem ofDigits_append (ds : List UInt16) (u : UInt16) :
    ofDigits (ds ++ [u]) = 10 * ofDigits ds + (u.toNat - 48) := by
  rw [ofDigits, List.foldl_append]
  rfl

theorem ofDigits_reverse (ds : List Nat) (h : ∀ d ∈ ds, d < 10) :
    ofDigits (ds.reverse.map fun d => unit '0' + d.toUInt16) = Nat.ofDigits 10 ds := by
  induction ds with
  | nil => rfl
  | cons d ds ih =>
    obtain ⟨hd, hds⟩ := List.forall_mem_cons.1 h
    rw [List.reverse_cons, List.map_append, List.map_cons, List.map_nil, ofDigits_append, ih hds,
      toNat_digit hd, Nat.ofDigits_cons]
    omega

theorem ofDigits_digits (n : Nat) : ofDigits (digits n) = n := by
  unfold digits
  split
  · rename_i hzero
    rw [hzero]
    decide
  · rw [ofDigits_reverse _ fun d hd => Nat.digits_lt_base (by decide) hd, Nat.ofDigits_digits]

theorem takeWhile_append {p : UInt16 → Bool} {text rest : List UInt16}
    (htext : ∀ u ∈ text, p u = true) (hrest : ∀ u ∈ rest.head?, p u = false) :
    (text ++ rest).takeWhile p = text ∧ (text ++ rest).dropWhile p = rest := by
  induction text with
  | nil =>
    cases rest with
    | nil => exact ⟨rfl, rfl⟩
    | cons u rest =>
      have hu := hrest u rfl
      exact ⟨by simp [hu], by simp [hu]⟩
  | cons u text ih =>
    obtain ⟨hu, htext⟩ := List.forall_mem_cons.1 htext
    obtain ⟨htake, hdrop⟩ := ih htext
    rw [List.cons_append, List.takeWhile_cons, List.dropWhile_cons, if_pos hu, if_pos hu, htake,
      hdrop]
    exact ⟨rfl, rfl⟩

/-- A unit that stands for itself in a string. -/
def Plain (u : UInt16) : Prop := u ≠ unit '"' ∧ ¬u < 0x20 ∧ u ≠ unit '\\'

theorem parseUnits_plain {u : UInt16} (h : Plain u) (rest : List UInt16) :
    parseUnits (u :: rest) = (parseUnits rest).map fun (units, rest) => (u :: units, rest) := by
  obtain ⟨hquote, hcontrol, hslash⟩ := h
  rw [parseUnits.eq_def]
  simp only [hquote, hcontrol, hslash, if_false, if_true, ne_eq, not_false_iff]

theorem parseUnits_quote (rest : List UInt16) : parseUnits (unit '"' :: rest) = some ([], rest) := by
  rw [parseUnits.eq_def]
  simp

theorem parseUnits_escaped {v escaped : UInt16} (hv : v ≠ unit 'u') (h : parseEscape v = some escaped)
    (rest : List UInt16) : parseUnits (unit '\\' :: v :: rest) =
      (parseUnits rest).map fun (units, rest) => (escaped :: units, rest) := by
  rw [parseUnits.eq_def]
  simp [hv, h, show unit '\\' ≠ unit '"' by decide, show ¬unit '\\' < 0x20 by decide]

theorem skipSpace_cons {u : UInt16} (h : isSpace u = false) (rest : List UInt16) :
    skipSpace (u :: rest) = u :: rest := by
  rw [skipSpace, List.dropWhile_cons, h]
  rfl

theorem isNumeric_ne {u v : UInt16} (hu : isNumeric u = true) (hv : isNumeric v = false) :
    u ≠ v := by
  intro heq
  rw [heq, hv] at hu
  cases hu

theorem isSpace_of_isNumeric {u : UInt16} (h : isNumeric u = true) : isSpace u = false := by
  have hne {v : UInt16} (hv : isNumeric v = false) : decide (u = v) = false :=
    decide_eq_false (isNumeric_ne h hv)
  simp only [isSpace, hne (show isNumeric 0x20 = false by decide),
    hne (show isNumeric 9 = false by decide), hne (show isNumeric 10 = false by decide),
    hne (show isNumeric 13 = false by decide), Bool.or_self]

end JsonText
