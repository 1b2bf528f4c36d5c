import CommonFabric.JsValue
import Mathlib.Data.Nat.Digits.Defs

/-!
# JSON text

The text `JSON.stringify` gives a tree, as UTF-16 code units, and what that text takes:
its bytes in UTF-8 and the values it holds. Both are sums over the tree, which is what a
message is cut to size by.
-/

/-- A JSON tree. -/
inductive Json where
  | null
  | bool (b : Bool)
  | number (q : ℚ)
  | string (s : JsString)
  | array (items : List Json)
  | object (members : List (JsString × Json))

namespace JsonText

def unit (c : Char) : UInt16 := c.toNat.toUInt16

/-- The decimal digits of a number. -/
def digits (n : Nat) : List UInt16 :=
  if n = 0 then [unit '0'] else (Nat.digits 10 n).reverse.map fun d => unit '0' + d.toUInt16

/-- `10 ^ n`. -/
def pow10 (n : Int) : ℚ := if n < 0 then 1 / (10 ^ (-n).toNat : Nat) else (10 ^ n.toNat : Nat)

/-- The `n` with `10 ^ (n - 1) ≤ q < 10 ^ n`. -/
def magnitude (q : ℚ) : Int :=
  let e : Int := (Nat.digits 10 q.num.natAbs).length - (Nat.digits 10 q.den).length
  if q < pow10 e then e else e + 1

/-- The `k` digit number whose last digit stands at `10 ^ (n - k)` and which is nearest to
`q` among those that read back as `q`. -/
def candidate (q : ℚ) (n : Int) (k : Nat) : Option Nat :=
  let scaled := q * pow10 (k - n)
  let below := scaled.floor.toNat
  let reads (s : Nat) := JsNumber.round (s * pow10 (n - k)) = .finite q
  if reads below ∧ (scaled - below ≤ below + 1 - scaled ∨ ¬reads (below + 1)) then some below
  else if reads (below + 1) then some (below + 1) else none

/-- The fewest digits that read back as `q`, tried from `k` on, and their place. -/
def shortest (q : ℚ) (n : Int) : Nat → Nat → Nat × Int
  | 0, k => ((q * pow10 (k - n)).floor.toNat, n)
  | fuel + 1, k =>
    match candidate q n k with
    | some s => if s = 10 ^ k then (1, n + 1) else (s, n)
    | none => shortest q n fuel (k + 1)

/-- The text of a positive number: its digits `s`, with the point after `n` of them. -/
def layout (s : List UInt16) (n : Int) : List UInt16 :=
  let k := s.length
  if k ≤ n ∧ n ≤ 21 then s ++ List.replicate (n.toNat - k) (unit '0')
  else if 0 < n ∧ n ≤ 21 then s.take n.toNat ++ unit '.' :: s.drop n.toNat
  else if -6 < n ∧ n ≤ 0 then
    unit '0' :: unit '.' :: (List.replicate (-n).toNat (unit '0') ++ s)
  else
    let exponent := (if n < 1 then unit '-' else unit '+') :: digits (n - 1).natAbs
    if k = 1 then s ++ unit 'e' :: exponent
    else s.take 1 ++ unit '.' :: s.drop 1 ++ unit 'e' :: exponent

def positiveText (q : ℚ) : List UInt16 :=
  let (s, n) := shortest q (magnitude q) 17 1
  layout (digits s) n

def numberText (q : ℚ) : List UInt16 :=
  if q = 0 then [unit '0']
  else if q < 0 then unit '-' :: positiveText (-q) else positiveText q

def isHigh (u : UInt16) : Bool := 0xD800 ≤ u && u < 0xDC00

def isLow (u : UInt16) : Bool := 0xDC00 ≤ u && u < 0xE000

def hexDigit (n : Nat) : UInt16 :=
  if n < 10 then unit '0' + n.toUInt16 else unit 'a' + (n - 10).toUInt16

/-- `\uXXXX`. -/
def hexEscape (u : UInt16) : List UInt16 :=
  [unit '\\', unit 'u', hexDigit (u.toNat / 4096 % 16), hexDigit (u.toNat / 256 % 16),
    hexDigit (u.toNat / 16 % 16), hexDigit (u.toNat % 16)]

/-- A code unit that is no half of a surrogate pair, as a JSON string writes it. -/
def escapeUnit (u : UInt16) : List UInt16 :=
  if u = unit '"' then [unit '\\', unit '"']
  else if u = unit '\\' then [unit '\\', unit '\\']
  else if u = 8 then [unit '\\', unit 'b']
  else if u = 9 then [unit '\\', unit 't']
  else if u = 10 then [unit '\\', unit 'n']
  else if u = 12 then [unit '\\', unit 'f']
  else if u = 13 then [unit '\\', unit 'r']
  else if u < 0x20 || isHigh u || isLow u then hexEscape u
  else [u]

/-- A surrogate pair stands as it is, a lone surrogate is escaped. -/
def escape : List UInt16 → List UInt16
  | [] => []
  | [u] => escapeUnit u
  | u :: v :: rest =>
    if isHigh u && isLow v then u :: v :: escape rest else escapeUnit u ++ escape (v :: rest)

def quoted (s : JsString) : List UInt16 := unit '"' :: (escape s.units ++ [unit '"'])

/-- Texts with a comma between each two. -/
def commaSeparated : List (List UInt16) → List UInt16
  | [] => []
  | [text] => text
  | text :: rest => text ++ unit ',' :: commaSeparated rest

mutual
/-- `JSON.stringify(tree)`. -/
def render : Json → List UInt16
  | .null => "null".toList.map unit
  | .bool b => (if b then "true" else "false").toList.map unit
  | .number q => numberText q
  | .string s => quoted s
  | .array items => unit '[' :: (commaSeparated (renderItems items) ++ [unit ']'])
  | .object members => unit '\x7b' :: (commaSeparated (renderMembers members) ++ [unit '\x7d'])

def renderItems : List Json → List (List UInt16)
  | [] => []
  | item :: rest => render item :: renderItems rest

def renderMembers : List (JsString × Json) → List (List UInt16)
  | [] => []
  | (key, value) :: rest => (quoted key ++ unit ':' :: render value) :: renderMembers rest
end

/-- The bytes of a code unit by itself; a lone surrogate becomes a replacement character. -/
def unitBytes (u : UInt16) : Nat := if u < 0x80 then 1 else if u < 0x800 then 2 else 3

/-- The length of what `TextEncoder` makes of a text. A surrogate pair takes four bytes. -/
def utf8Length : List UInt16 → Nat
  | [] => 0
  | [u] => unitBytes u
  | u :: v :: rest =>
    if isHigh u && isLow v then 4 + utf8Length rest else unitBytes u + utf8Length (v :: rest)

end JsonText

namespace Json

open JsonText

mutual
/-- The bytes of a tree's text. -/
def bytes : Json → Nat
  | .null => 4
  | .bool b => if b then 4 else 5
  | .number q => utf8Length (numberText q)
  | .string s => utf8Length (quoted s)
  | .array items => 2 + (itemBytes items - 1)
  | .object members => 2 + (memberBytes members - 1)

/-- The bytes of items, each with a comma. -/
def itemBytes : List Json → Nat
  | [] => 0
  | item :: rest => bytes item + 1 + itemBytes rest

/-- The bytes of members, each with a colon and a comma. -/
def memberBytes : List (JsString × Json) → Nat
  | [] => 0
  | (key, value) :: rest => utf8Length (quoted key) + 1 + bytes value + 1 + memberBytes rest
end

end Json

namespace JsonText

/-- A text that cannot complete a surrogate pair begun before it. -/
def Detached (text : List UInt16) : Prop := ∀ u ∈ text.head?, isLow u = false

theorem utf8Length_append (a : List UInt16) {b : List UInt16} (hb : Detached b) :
    utf8Length (a ++ b) = utf8Length a + utf8Length b := by
  induction a using utf8Length.induct with
  | case1 => simp [utf8Length]
  | case2 u =>
    cases b with
    | nil => simp [utf8Length]
    | cons v rest =>
      have hv : isLow v = false := hb v rfl
      simp [utf8Length, hv]
  | case3 u v rest hpair ih =>
    rw [List.cons_append, List.cons_append, utf8Length, utf8Length, if_pos hpair, if_pos hpair, ih,
      Nat.add_assoc]
  | case4 u v rest hpair ih =>
    rw [List.cons_append] at ih
    rw [List.cons_append, List.cons_append, utf8Length, utf8Length, if_neg hpair, if_neg hpair, ih,
      Nat.add_assoc]

theorem utf8Length_cons {u : UInt16} (hu : u < 0x80) (rest : List UInt16) :
    utf8Length (u :: rest) = 1 + utf8Length rest := by
  have hhigh : isHigh u = false := by
    simp only [isHigh, Bool.and_eq_false_imp, decide_eq_true_eq, decide_eq_false_iff_not]
    intro h
    exact absurd (UInt16.lt_of_le_of_lt h hu) (by decide)
  cases rest with
  | nil => simp [utf8Length, unitBytes, hu]
  | cons v rest => simp [utf8Length, unitBytes, hhigh, hu]

/-- The characters of a number's text. -/
def isNumeric (u : UInt16) : Bool :=
  (unit '0' ≤ u && u ≤ unit '9') || u = unit '-' || u = unit '+' || u = unit '.' || u = unit 'e'

theorem isNumeric_digit {d : Nat} (hd : d < 10) : isNumeric (unit '0' + d.toUInt16) = true := by
  have h : ∀ e : Fin 10, isNumeric (unit '0' + e.val.toUInt16) = true := by decide
  exact h ⟨d, hd⟩

theorem digits_ne_nil (n : Nat) : digits n ≠ [] := by
  unfold digits
  split
  · exact List.cons_ne_nil _ _
  · rename_i h
    simpa [Nat.digits_eq_nil_iff_eq_zero] using h

theorem isNumeric_digits (n : Nat) : ∀ u ∈ digits n, isNumeric u = true := by
  intro u hu
  unfold digits at hu
  split at hu
  · obtain rfl := List.mem_singleton.1 hu
    decide
  · obtain ⟨d, hd, rfl⟩ := List.mem_map.1 hu
    exact isNumeric_digit (Nat.digits_lt_base (by decide) (List.mem_reverse.1 hd))

theorem layout_ne_nil {s : List UInt16} (hs : s ≠ []) (n : Int) : layout s n ≠ [] := by
  unfold layout
  simp only
  split
  · exact List.append_ne_nil_of_left_ne_nil hs _
  · split
    · simp
    · split
      · exact List.cons_ne_nil _ _
      · split <;> simp

theorem isNumeric_layout {s : List UInt16} (hs : ∀ u ∈ s, isNumeric u = true) (n : Int) :
    ∀ u ∈ layout s n, isNumeric u = true := by
  have hzero : isNumeric (unit '0') = true := by decide
  have hpoint : isNumeric (unit '.') = true := by decide
  have he : isNumeric (unit 'e') = true := by decide
  have hsign : ∀ b : Bool, isNumeric (if b then unit '-' else unit '+') = true := by decide
  intro u hu
  unfold layout at hu
  simp only at hu
  split at hu
  · rcases List.mem_append.1 hu with h | h
    · exact hs u h
    · exact List.eq_of_mem_replicate h ▸ hzero
  split at hu
  · rcases List.mem_append.1 hu with h | h
    · exact hs u (List.mem_of_mem_take h)
    · rcases List.mem_cons.1 h with rfl | h
      · exact hpoint
      · exact hs u (List.mem_of_mem_drop h)
  split at hu
  · simp only [List.mem_cons, List.mem_append, List.mem_replicate] at hu
    rcases hu with rfl | rfl | ⟨_, rfl⟩ | h
    · exact hzero
    · exact hpoint
    · exact hzero
    · exact hs u h
  have hexponent : u ∈ (if n < 1 then unit '-' else unit '+') :: digits (n - 1).natAbs →
      isNumeric u = true := by
    intro h
    rcases List.mem_cons.1 h with rfl | h
    · simpa using hsign (decide (n < 1))
    · exact isNumeric_digits _ u h
  split at hu
  · rcases List.mem_append.1 hu with h | h
    · exact hs u h
    · rcases List.mem_cons.1 h with rfl | h
      · exact he
      · exact hexponent h
  · simp only [List.append_assoc, List.cons_append] at hu
    rcases List.mem_append.1 hu with h | h
    · exact hs u (List.mem_of_mem_take h)
    rcases List.mem_cons.1 h with rfl | h
    · exact hpoint
    rcases List.mem_append.1 h with h | h
    · exact hs u (List.mem_of_mem_drop h)
    rcases List.mem_cons.1 h with rfl | h
    · exact he
    · exact hexponent h

theorem positiveText_ne_nil (q : ℚ) : positiveText q ≠ [] :=
  layout_ne_nil (digits_ne_nil _) _

theorem isNumeric_positiveText (q : ℚ) : ∀ u ∈ positiveText q, isNumeric u = true :=
  isNumeric_layout (isNumeric_digits _) _

theorem numberText_ne_nil (q : ℚ) : numberText q ≠ [] := by
  unfold numberText
  split
  · exact List.cons_ne_nil _ _
  · split
    · exact List.cons_ne_nil _ _
    · exact positiveText_ne_nil q

theorem isNumeric_numberText (q : ℚ) : ∀ u ∈ numberText q, isNumeric u = true := by
  intro u hu
  unfold numberText at hu
  split at hu
  · obtain rfl := List.mem_singleton.1 hu
    decide
  split at hu
  · rcases List.mem_cons.1 hu with rfl | hu
    · decide
    · exact isNumeric_positiveText _ u hu
  · exact isNumeric_positiveText _ u hu

theorem isLow_of_isNumeric {u : UInt16} (h : isNumeric u = true) : isLow u = false := by
  have hsmall : u < 0x80 := by
    simp only [isNumeric, Bool.or_eq_true, Bool.and_eq_true, decide_eq_true_eq] at h
    rcases h with (((⟨_, h⟩ | h) | h) | h) | h
    · exact UInt16.lt_of_le_of_lt h (by decide)
    all_goals exact h ▸ (by decide)
  simp only [isLow, Bool.and_eq_false_imp, decide_eq_true_eq, decide_eq_false_iff_not]
  intro hle
  exact absurd (UInt16.lt_of_le_of_lt hle hsmall) (by decide)

theorem detached_cons {u : UInt16} (h : isLow u = false) (rest : List UInt16) :
    Detached (u :: rest) := by
  rintro v hv
  obtain rfl : u = v := by simpa using hv
  exact h

theorem render_ne_nil (tree : Json) : render tree ≠ [] := by
  cases tree with
  | number q => simpa only [render] using numberText_ne_nil q
  | bool b => cases b <;> simp [render]
  | _ => simp [render, quoted]

theorem detached_render (tree : Json) : Detached (render tree) := by
  cases tree with
  | null => exact detached_cons (by decide) _
  | bool b => cases b <;> exact detached_cons (by decide) _
  | number q =>
    intro u hu
    exact isLow_of_isNumeric (isNumeric_numberText q u (List.mem_of_mem_head? hu))
  | string s => exact detached_cons (by decide) _
  | array items => exact detached_cons (by decide) _
  | object members => exact detached_cons (by decide) _

/-- Texts to be joined by commas: none empty, none completing a pair. -/
def Pieces (texts : List (List UInt16)) : Prop := ∀ text ∈ texts, text ≠ [] ∧ Detached text

/-- Each text is charged its comma, and the last has none. -/
theorem utf8Length_commaSeparated {texts : List (List UInt16)} (h : Pieces texts) :
    utf8Length (commaSeparated texts) = (texts.map fun text => utf8Length text + 1).sum - 1 := by
  induction texts with
  | nil => rfl
  | cons text rest ih =>
    have hrest := ih fun t ht => h t (List.mem_cons_of_mem _ ht)
    cases rest with
    | nil => simp [commaSeparated]
    | cons next rest =>
      rw [commaSeparated, utf8Length_append _ (detached_cons (by decide) _),
        utf8Length_cons (by decide), hrest]
      · simp only [List.map_cons, List.sum_cons]
        omega
      · exact fun hnil => List.cons_ne_nil _ _ hnil

theorem pieces_renderItems (items : List Json) : Pieces (renderItems items) := by
  induction items with
  | nil => simp [Pieces, renderItems]
  | cons item rest ih =>
    rw [renderItems]
    exact List.forall_mem_cons.2 ⟨⟨render_ne_nil item, detached_render item⟩, ih⟩

theorem pieces_renderMembers (members : List (JsString × Json)) :
    Pieces (renderMembers members) := by
  induction members with
  | nil => simp [Pieces, renderMembers]
  | cons member rest ih =>
    obtain ⟨key, value⟩ := member
    rw [renderMembers]
    refine List.forall_mem_cons.2 ⟨⟨?_, detached_cons (by decide) _⟩, ih⟩
    simp [quoted]

/-- Between its brackets, a container takes what its pieces do. -/
theorem utf8Length_bracketed {texts : List (List UInt16)} (h : Pieces texts) {opening closing : UInt16}
    (hopening : opening < 0x80) (hclosing : closing < 0x80) :
    utf8Length (opening :: (commaSeparated texts ++ [closing])) =
      2 + ((texts.map fun text => utf8Length text + 1).sum - 1) := by
  have hlow : isLow closing = false := by
    simp only [isLow, Bool.and_eq_false_imp, decide_eq_true_eq, decide_eq_false_iff_not]
    intro hle
    exact absurd (UInt16.lt_of_le_of_lt hle hclosing) (by decide)
  rw [utf8Length_cons hopening, utf8Length_append _ (detached_cons hlow []),
    utf8Length_commaSeparated h, utf8Length_cons hclosing]
  simp only [utf8Length]
  omega

mutual
theorem utf8Length_render : (tree : Json) → utf8Length (render tree) = tree.bytes
  | .null => by decide
  | .bool b => by cases b <;> decide
  | .number q => by rw [render, Json.bytes]
  | .string s => by rw [render, Json.bytes]
  | .array items => by
    rw [render, Json.bytes, utf8Length_bracketed (pieces_renderItems items) (by decide) (by decide),
      utf8Length_renderItems items]
  | .object members => by
    rw [render, Json.bytes, utf8Length_bracketed (pieces_renderMembers members) (by decide)
      (by decide), utf8Length_renderMembers members]

theorem utf8Length_renderItems : (items : List Json) →
    ((renderItems items).map fun text => utf8Length text + 1).sum = Json.itemBytes items
  | [] => rfl
  | item :: rest => by
    rw [renderItems, List.map_cons, List.sum_cons, Json.itemBytes, utf8Length_render item,
      utf8Length_renderItems rest]

theorem utf8Length_renderMembers : (members : List (JsString × Json)) →
    ((renderMembers members).map fun text => utf8Length text + 1).sum = Json.memberBytes members
  | [] => rfl
  | (key, value) :: rest => by
    rw [renderMembers, List.map_cons, List.sum_cons, Json.memberBytes,
      utf8Length_append _ (detached_cons (by decide) _), utf8Length_cons (by decide),
      utf8Length_render value, utf8Length_renderMembers rest]
    omega
end

end JsonText
