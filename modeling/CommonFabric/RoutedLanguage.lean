import CommonFabric.RoutedTokens

/-!
# The language of routed frames

A frame is refused for what its text is written as: its nesting, the number of its values, a name
that an object is written with twice or may not be written with, a lone surrogate, a number that is
not finite. The scan and the parser read the text in step, so what the scan lets through is what
`JSON.parse` then reads.
-/

namespace RoutedJson

open JsonText

/-- The count of values with some more of them, within a cap. -/
def Counted (maxSlots : Option Nat) (slots more slots' : Nat) : Prop :=
  match maxSlots with
  | none => slots' = slots
  | some most => slots' = slots + more ∧ slots' ≤ most

theorem counted_add {maxSlots : Option Nat} {slots m n slots' : Nat} :
    Counted maxSlots slots (m + n) slots' ↔
      ∃ middle, Counted maxSlots slots m middle ∧ Counted maxSlots middle n slots' := by
  cases maxSlots with
  | none => simp [Counted]
  | some most =>
    constructor
    · rintro ⟨heq, hmost⟩
      exact ⟨slots + m, ⟨rfl, by omega⟩, by omega, hmost⟩
    · rintro ⟨middle, ⟨rfl, -⟩, heq, hmost⟩
      exact ⟨by omega, hmost⟩

theorem countSlot_iff {maxSlots : Option Nat} {depth slots slots' : Nat} :
    countSlot maxSlots depth slots = some slots' ↔
      depth ≤ ROUTED_DEPTH_LIMIT ∧ Counted maxSlots slots 1 slots' := by
  cases maxSlots with
  | none =>
    rw [countSlot, Counted]
    split <;> simp_all [eq_comm]
  | some most =>
    rw [countSlot, Counted]
    split
    · rename_i h
      rw [Option.some_inj]
      constructor
      · rintro rfl
        exact ⟨h.1, rfl, h.2⟩
      · rintro ⟨-, rfl, -⟩
        rfl
    · rename_i h
      constructor
      · intro hnone
        cases hnone
      · rintro ⟨hdepth, rfl, hmost⟩
        exact absurd ⟨hdepth, hmost⟩ h

/-- What the scan checks of one value. -/
def Allowed : WrittenJson → Prop
  | .string s => Bytes.WellFormed s.units
  | .number n => (numberTree n).isSome = true
  | .object members => (members.map (·.1)).Nodup ∧
      ∀ key ∈ members.map (·.1), Bytes.WellFormed key.units ∧ key ∉ forbiddenKeys
  | _ => True

/-- What the scan checks of every value, at its depth. -/
def AllAllowed (parts : List (Nat × WrittenJson)) : Prop :=
  ∀ part ∈ parts, part.1 ≤ ROUTED_DEPTH_LIMIT ∧ Allowed part.2

theorem allAllowed_append {parts parts' : List (Nat × WrittenJson)} :
    AllAllowed (parts ++ parts') ↔ AllAllowed parts ∧ AllAllowed parts' :=
  List.forall_mem_append

theorem allAllowed_cons {part : Nat × WrittenJson} {parts : List (Nat × WrittenJson)} :
    AllAllowed (part :: parts) ↔
      (part.1 ≤ ROUTED_DEPTH_LIMIT ∧ Allowed part.2) ∧ AllAllowed parts :=
  List.forall_mem_cons

theorem allAllowed_nil : AllAllowed [] := fun _ h => by cases h

/-- A text that is over or goes on with a mark that ends an element, after space. -/
theorem endsScalar_of_skipSpace {text : List UInt16}
    (h : ∀ u ∈ (skipSpace text).head?, isDelimiter u = true) : EndsScalar text := by
  cases text with
  | nil => exact endsScalar_nil
  | cons u rest =>
    by_cases hspace : isSpace u = true
    · exact endsScalar_cons (by rw [isDelimiter, hspace]; rfl) rest
    · rw [skipSpace_cons (Bool.eq_false_iff.2 hspace)] at h
      exact h

/-- The names of members, each once and none of them before. -/
def FreshAfter (keys : List JsString) (members : List (JsString × WrittenJson)) : Prop :=
  (members.map (·.1)).Nodup ∧ ∀ key ∈ members.map (·.1),
    key ∉ keys ∧ Bytes.WellFormed key.units ∧ key ∉ forbiddenKeys

theorem freshAfter_nil (keys : List JsString) : FreshAfter keys [] :=
  ⟨List.nodup_nil, by simp⟩

theorem freshAfter_cons {keys : List JsString} {key : JsString} {tree : WrittenJson}
    {members : List (JsString × WrittenJson)} :
    FreshAfter keys ((key, tree) :: members) ↔
      (key ∉ keys ∧ Bytes.WellFormed key.units ∧ key ∉ forbiddenKeys) ∧
        FreshAfter (key :: keys) members := by
  rw [FreshAfter, List.map_cons, List.nodup_cons, List.forall_mem_cons, FreshAfter]
  constructor
  · rintro ⟨⟨hnew, hnodup⟩, hkey, hkeys⟩
    refine ⟨hkey, hnodup, fun k hk => ⟨fun hmem => ?_, (hkeys k hk).2⟩⟩
    cases List.mem_cons.1 hmem with
    | inl heq => exact hnew (heq ▸ hk)
    | inr hold => exact (hkeys k hk).1 hold
  · rintro ⟨hkey, hnodup, hkeys⟩
    refine ⟨⟨fun hk => (hkeys key hk).1 List.mem_cons_self, hnodup⟩, hkey, fun k hk => ?_⟩
    exact ⟨fun hold => (hkeys k hk).1 (List.mem_cons_of_mem _ hold), (hkeys k hk).2⟩

section

variable (maxSlots : Option Nat) (fuel : Nat)

/-- What a scan of one value takes. -/
def ValueScanned : Prop :=
  ∀ depth slots text slots' rest, EndsScalar rest →
    (scanValue maxSlots fuel depth slots text = some (slots', rest) ↔
      ∃ tree, readValue fuel text = some (tree, rest) ∧ AllAllowed (tree.parts depth) ∧
        Counted maxSlots slots (tree.parts depth).length slots')

def ItemsScanned : Prop :=
  ∀ depth slots text slots' rest,
    scanItems maxSlots fuel depth slots text = some (slots', rest) ↔
      ∃ items, readItems fuel text = some (items, rest) ∧
        AllAllowed (WrittenJson.partsItems (depth + 1) items) ∧
        Counted maxSlots slots (WrittenJson.partsItems (depth + 1) items).length slots'

def MembersScanned : Prop :=
  ∀ depth slots keys text slots' rest,
    scanMembers maxSlots fuel depth slots keys text = some (slots', rest) ↔
      ∃ members, readMembers fuel text = some (members, rest) ∧
        FreshAfter keys members ∧
        AllAllowed (WrittenJson.partsMembers (depth + 1) members) ∧
        Counted maxSlots slots (WrittenJson.partsMembers (depth + 1) members).length slots'

end

variable {maxSlots : Option Nat} {fuel : Nat}

/-- A value counts itself and is at most at the limit, before what is in it. -/
theorem scanValue_iff {depth slots slots' : Nat} {text rest : List UInt16} :
    scanValue maxSlots (fuel + 1) depth slots text = some (slots', rest) ↔
      ∃ counted, (depth ≤ ROUTED_DEPTH_LIMIT ∧ Counted maxSlots slots 1 counted) ∧
        (match skipSpace text with
          | [] => none
          | u :: rest =>
            if u = unit '"' then (scanString (u :: rest)).map fun (_, rest) => (counted, rest)
            else if u = unit '\x7b' then
              if (skipSpace rest).head? = some (unit '\x7d') then
                some (counted, (skipSpace rest).tail)
              else scanMembers maxSlots fuel depth counted [] rest
            else if u = unit '[' then
              if (skipSpace rest).head? = some (unit ']') then
                some (counted, (skipSpace rest).tail)
              else scanItems maxSlots fuel depth counted rest
            else (scanScalar (u :: rest)).map fun rest => (counted, rest)) =
          some (slots', rest) := by
  rw [scanValue, Option.bind_eq_bind, Option.bind_eq_some_iff]
  constructor
  · rintro ⟨counted, hcount, h⟩
    exact ⟨counted, countSlot_iff.1 hcount, h⟩
  · rintro ⟨counted, hcount, h⟩
    exact ⟨counted, countSlot_iff.2 hcount, h⟩

/-- A value with others in it, which are counted after it. -/
theorem counted_part {depth slots slots' : Nat} {tree : WrittenJson}
    {inner : List (Nat × WrittenJson)} :
    (AllAllowed ((depth, tree) :: inner) ∧
      Counted maxSlots slots ((depth, tree) :: inner).length slots') ↔
    ∃ counted, (depth ≤ ROUTED_DEPTH_LIMIT ∧ Counted maxSlots slots 1 counted) ∧ Allowed tree ∧
      AllAllowed inner ∧ Counted maxSlots counted inner.length slots' := by
  rw [allAllowed_cons, List.length_cons, Nat.add_comm, counted_add]
  constructor
  · rintro ⟨⟨⟨hdepth, htree⟩, hinner⟩, counted, hone, hmore⟩
    exact ⟨counted, ⟨hdepth, hone⟩, htree, hinner, hmore⟩
  · rintro ⟨counted, ⟨hdepth, hone⟩, htree, hinner, hmore⟩
    exact ⟨⟨⟨hdepth, htree⟩, hinner⟩, counted, hone, hmore⟩

/-- A value with no other in it. -/
theorem counted_leaf {depth slots slots' : Nat} {tree : WrittenJson} :
    (AllAllowed [(depth, tree)] ∧ Counted maxSlots slots [(depth, tree)].length slots') ↔
    (depth ≤ ROUTED_DEPTH_LIMIT ∧ Counted maxSlots slots 1 slots') ∧ Allowed tree := by
  rw [allAllowed_cons, List.length_singleton]
  constructor
  · rintro ⟨⟨⟨hdepth, htree⟩, -⟩, hone⟩
    exact ⟨⟨hdepth, hone⟩, htree⟩
  · rintro ⟨⟨hdepth, hone⟩, htree⟩
    exact ⟨⟨⟨hdepth, htree⟩, allAllowed_nil⟩, hone⟩

theorem parts_of_readScalar {text rest : List UInt16} {tree : WrittenJson}
    (h : readScalar text = some (tree, rest)) (depth : Nat) :
    tree.parts depth = [(depth, tree)] ∧ (Allowed tree ↔ tree.value.isSome = true) := by
  unfold readScalar at h
  split at h
  · cases h
    exact ⟨rfl, by simp [Allowed, WrittenJson.value]⟩
  split at h
  · cases h
    exact ⟨rfl, by simp [Allowed, WrittenJson.value]⟩
  split at h
  · cases h
    exact ⟨rfl, by simp [Allowed, WrittenJson.value]⟩
  obtain ⟨⟨n, rest'⟩, -, heq⟩ := Option.map_eq_some_iff.1 h
  cases heq
  exact ⟨rfl, Iff.rfl⟩

theorem valueScanned_succ (hitems : ItemsScanned maxSlots fuel)
    (hmembers : MembersScanned maxSlots fuel) : ValueScanned maxSlots (fuel + 1) := by
  intro depth slots text slots' rest hrest
  rw [scanValue_iff, readValue]
  cases hskip : skipSpace text with
  | nil => simp
  | cons u more =>
    have hspace : isSpace u = false := by
      have hhead := List.head?_dropWhile_not isSpace text
      rw [← skipSpace, hskip] at hhead
      simpa using hhead
    dsimp only
    by_cases hquote : u = unit '"'
    · simp only [if_pos hquote]
      rw [hquote]
      constructor
      · rintro ⟨counted, hcount, h⟩
        obtain ⟨⟨s, rest'⟩, hs, heq⟩ := Option.map_eq_some_iff.1 h
        cases heq
        obtain ⟨hunits, hwell⟩ := (scanString_iff _ _ _).1 hs
        exact ⟨.string s, by rw [hunits]; rfl, counted_leaf.2 ⟨hcount, hwell⟩⟩
      · rintro ⟨tree, hread, hparts⟩
        obtain ⟨⟨units, rest'⟩, hunits, heq⟩ := Option.map_eq_some_iff.1 hread
        cases heq
        obtain ⟨hcount, hwell⟩ := counted_leaf.1 hparts
        exact ⟨slots', hcount, by rw [(scanString_iff _ _ ⟨units⟩).2 ⟨hunits, hwell⟩]; rfl⟩
    by_cases hbrace : u = unit '\x7b'
    · have hbracket : u ≠ unit '[' := by
        rw [hbrace]
        decide
      simp only [if_neg hquote, if_pos hbrace, if_neg hbracket]
      by_cases hempty : (skipSpace more).head? = some (unit '\x7d')
      · simp only [if_pos hempty]
        constructor
        · rintro ⟨counted, hcount, h⟩
          cases h
          exact ⟨.object [], rfl, counted_leaf.2 ⟨hcount, List.nodup_nil, by simp⟩⟩
        · rintro ⟨tree, hread, hparts⟩
          cases hread
          exact ⟨slots', (counted_leaf.1 hparts).1, rfl⟩
      · simp only [if_neg hempty]
        constructor
        · rintro ⟨counted, hcount, h⟩
          obtain ⟨members, hread, ⟨hnodup, hkeys⟩, hparts⟩ := (hmembers _ _ _ _ _ _).1 h
          exact ⟨.object members, by rw [hread]; rfl, counted_part.2
            ⟨counted, hcount, ⟨hnodup, fun key hkey => (hkeys key hkey).2⟩, hparts⟩⟩
        · rintro ⟨tree, htree, hparts⟩
          obtain ⟨⟨members, rest'⟩, hread, heq⟩ := Option.map_eq_some_iff.1 htree
          cases heq
          obtain ⟨counted, hcount, ⟨hnodup, hkeys⟩, hparts⟩ := counted_part.1 hparts
          exact ⟨counted, hcount, (hmembers _ _ _ _ _ _).2 ⟨members, hread,
            ⟨hnodup, fun key hkey => ⟨List.not_mem_nil, hkeys key hkey⟩⟩, hparts⟩⟩
    by_cases hbracket : u = unit '['
    · simp only [if_neg hquote, if_neg hbrace, if_pos hbracket]
      by_cases hempty : (skipSpace more).head? = some (unit ']')
      · simp only [if_pos hempty]
        constructor
        · rintro ⟨counted, hcount, h⟩
          cases h
          exact ⟨.array [], rfl, counted_leaf.2 ⟨hcount, trivial⟩⟩
        · rintro ⟨tree, hread, hparts⟩
          cases hread
          exact ⟨slots', (counted_leaf.1 hparts).1, rfl⟩
      · simp only [if_neg hempty]
        constructor
        · rintro ⟨counted, hcount, h⟩
          obtain ⟨items, hread, hparts⟩ := (hitems _ _ _ _ _).1 h
          exact ⟨.array items, by rw [hread]; rfl,
            counted_part.2 ⟨counted, hcount, trivial, hparts⟩⟩
        · rintro ⟨tree, htree, hparts⟩
          obtain ⟨⟨items, rest'⟩, hread, heq⟩ := Option.map_eq_some_iff.1 htree
          cases heq
          obtain ⟨counted, hcount, -, hparts⟩ := counted_part.1 hparts
          exact ⟨counted, hcount, (hitems _ _ _ _ _).2 ⟨items, hread, hparts⟩⟩
    · simp only [if_neg hquote, if_neg hbrace, if_neg hbracket]
      constructor
      · rintro ⟨counted, hcount, h⟩
        obtain ⟨rest', hscan, heq⟩ := Option.map_eq_some_iff.1 h
        cases heq
        obtain ⟨tree, hread, hvalue⟩ :=
          (scanScalar_iff hspace hquote hbracket hbrace hrest).1 hscan
        obtain ⟨hparts, hallowed⟩ := parts_of_readScalar hread depth
        rw [← hallowed] at hvalue
        refine ⟨tree, hread, ?_⟩
        rw [hparts]
        exact counted_leaf.2 ⟨hcount, hvalue⟩
      · rintro ⟨tree, hread, hall⟩
        obtain ⟨hparts, hallowed⟩ := parts_of_readScalar hread depth
        rw [hparts] at hall
        obtain ⟨hcount, hvalue⟩ := counted_leaf.1 hall
        rw [hallowed] at hvalue
        refine ⟨slots', hcount, ?_⟩
        rw [(scanScalar_iff hspace hquote hbracket hbrace hrest).2 ⟨tree, hread, hvalue⟩]
        rfl

theorem endsScalar_of_mark {text more : List UInt16} {u : UInt16} (h : skipSpace text = u :: more)
    (hu : isDelimiter u = true) : EndsScalar text := by
  apply endsScalar_of_skipSpace
  rw [h]
  intro v hv
  cases hv
  exact hu

/-- An element and what stands after it, where the elements after it are scanned as they are
read. -/
theorem elements_scanned {α : Type} {close : UInt16} (hclose : isDelimiter close = true)
    (hvalue : ValueScanned maxSlots fuel) {depth : Nat} (element : WrittenJson → α)
    {parts : List α → List (Nat × WrittenJson)} (hnil : parts [] = [])
    (hcons : ∀ tree elements,
      parts (element tree :: elements) = tree.parts depth ++ parts elements)
    {Fresh : List α → Prop} (hfresh : Fresh [])
    {scanMore : Nat → List UInt16 → Option (Nat × List UInt16)}
    {readMore : List UInt16 → Option (List α × List UInt16)}
    (hmore : ∀ slots text slots' rest, scanMore slots text = some (slots', rest) ↔
      ∃ elements, readMore text = some (elements, rest) ∧ Fresh elements ∧
        AllAllowed (parts elements) ∧ Counted maxSlots slots (parts elements).length slots')
    {slots slots' : Nat} {text rest : List UInt16} :
    ((scanValue maxSlots fuel depth slots text).bind fun (slots, rest) =>
        match skipSpace rest with
        | [] => none
        | u :: rest =>
          if u = close then some (slots, rest)
          else if u = unit ',' then scanMore slots rest
          else none) = some (slots', rest) ↔
      ∃ elements, ((readValue fuel text).bind fun (tree, rest) =>
          match skipSpace rest with
          | [] => none
          | u :: rest =>
            if u = close then some ([element tree], rest)
            else if u = unit ',' then
              (readMore rest).map fun (elements, rest) => (element tree :: elements, rest)
            else none) = some (elements, rest) ∧ Fresh elements.tail ∧
        AllAllowed (parts elements) ∧ Counted maxSlots slots (parts elements).length slots' := by
  rw [Option.bind_eq_some_iff]
  constructor
  · rintro ⟨⟨middle, left⟩, hscan, h⟩
    dsimp only at h
    cases hskip : skipSpace left with
    | nil =>
      rw [hskip] at h
      cases h
    | cons u more =>
      rw [hskip] at h
      dsimp only at h
      split at h
      · rename_i hu
        cases h
        obtain ⟨tree, hread, hall, hcount⟩ :=
          (hvalue _ _ _ _ _ (endsScalar_of_mark hskip (by rw [hu]; exact hclose))).1 hscan
        refine ⟨[element tree], ?_, hfresh, ?_⟩
        · rw [hread, Option.bind_some]
          dsimp only
          rw [hskip]
          exact if_pos hu
        · rw [hcons, hnil, List.append_nil]
          exact ⟨hall, hcount⟩
      split at h
      · rename_i hne hu
        obtain ⟨tree, hread, hall, hcount⟩ :=
          (hvalue _ _ _ _ _ (endsScalar_of_mark hskip (by rw [hu]; decide))).1 hscan
        obtain ⟨elements, hafter, hfresh', hall', hcount'⟩ := (hmore _ _ _ _).1 h
        refine ⟨element tree :: elements, ?_, hfresh', ?_⟩
        · rw [hread, Option.bind_some]
          dsimp only
          rw [hskip]
          dsimp only
          rw [if_neg hne, if_pos hu, hafter]
          rfl
        · rw [hcons, List.length_append]
          exact ⟨allAllowed_append.2 ⟨hall, hall'⟩, counted_add.2 ⟨middle, hcount, hcount'⟩⟩
      · cases h
  · rintro ⟨elements, hread, hfresh', hall, hcount⟩
    obtain ⟨⟨tree, left⟩, htree, h⟩ := Option.bind_eq_some_iff.1 hread
    dsimp only at h
    cases hskip : skipSpace left with
    | nil =>
      rw [hskip] at h
      cases h
    | cons u more =>
      rw [hskip] at h
      dsimp only at h
      split at h
      · rename_i hu
        cases h
        rw [hcons, hnil, List.append_nil] at hall hcount
        refine ⟨(slots', left),
          (hvalue _ _ _ _ _ (endsScalar_of_mark hskip (by rw [hu]; exact hclose))).2
            ⟨tree, htree, hall, hcount⟩, ?_⟩
        dsimp only
        rw [hskip]
        exact if_pos hu
      split at h
      · rename_i hne hu
        obtain ⟨⟨elements', rest'⟩, hafter, heq⟩ := Option.map_eq_some_iff.1 h
        cases heq
        rw [hcons] at hall hcount
        rw [List.length_append] at hcount
        obtain ⟨hall, hall'⟩ := allAllowed_append.1 hall
        obtain ⟨middle, hcount, hcount'⟩ := counted_add.1 hcount
        refine ⟨(middle, left),
          (hvalue _ _ _ _ _ (endsScalar_of_mark hskip (by rw [hu]; decide))).2
            ⟨tree, htree, hall, hcount⟩, ?_⟩
        dsimp only
        rw [hskip]
        dsimp only
        rw [if_neg hne, if_pos hu]
        exact (hmore _ _ _ _).2 ⟨elements', hafter, hfresh', hall', hcount'⟩
      · cases h

/-- What is read from an element on starts with it. -/
theorem elements_read {α : Type} {close : UInt16} (element : WrittenJson → α)
    {readMore : List UInt16 → Option (List α × List UInt16)} {text rest : List UInt16}
    {elements : List α}
    (h : ((readValue fuel text).bind fun (tree, rest) =>
        match skipSpace rest with
        | [] => none
        | u :: rest =>
          if u = close then some ([element tree], rest)
          else if u = unit ',' then
            (readMore rest).map fun (elements, rest) => (element tree :: elements, rest)
          else none) = some (elements, rest)) :
    ∃ tree, elements = element tree :: elements.tail := by
  obtain ⟨⟨tree, left⟩, -, h⟩ := Option.bind_eq_some_iff.1 h
  refine ⟨tree, ?_⟩
  dsimp only at h
  split at h
  · cases h
  split at h
  · cases h
    rfl
  split at h
  · obtain ⟨r, -, heq⟩ := Option.map_eq_some_iff.1 h
    cases heq
    rfl
  · cases h

theorem itemsScanned_succ (hvalue : ValueScanned maxSlots fuel)
    (hitems : ItemsScanned maxSlots fuel) : ItemsScanned maxSlots (fuel + 1) := by
  intro depth slots text slots' rest
  have hmore : ∀ slots text slots' rest,
      scanItems maxSlots fuel depth slots text = some (slots', rest) ↔
        ∃ items, readItems fuel text = some (items, rest) ∧ True ∧
          AllAllowed (WrittenJson.partsItems (depth + 1) items) ∧
          Counted maxSlots slots (WrittenJson.partsItems (depth + 1) items).length slots' := by
    intro slots text slots' rest
    rw [hitems depth slots text slots' rest]
    simp only [true_and]
  have hscan := @elements_scanned _ _ _ (unit ']') (by decide) hvalue (depth + 1) id
    (WrittenJson.partsItems (depth + 1)) rfl (fun _ _ => rfl) (fun _ => True) trivial _ _ hmore
    slots slots' text rest
  simp only [true_and] at hscan
  rw [scanItems, readItems]
  exact hscan

/-- A member from its name on, which is new and may stand in an object. -/
theorem member_scanned {depth slots slots' : Nat} {keys : List JsString} {key : JsString}
    {text rest : List UInt16}
    (hkey : key ∉ keys ∧ Bytes.WellFormed key.units ∧ key ∉ forbiddenKeys)
    (hvalue : ValueScanned maxSlots fuel) (hmembers : MembersScanned maxSlots fuel) :
    ((scanValue maxSlots fuel (depth + 1) slots text).bind fun (slots, rest) =>
        match skipSpace rest with
        | [] => none
        | u :: rest =>
          if u = unit '\x7d' then some (slots, rest)
          else if u = unit ',' then scanMembers maxSlots fuel depth slots (key :: keys) rest
          else none) = some (slots', rest) ↔
      ∃ members, ((readValue fuel text).bind fun (tree, rest) =>
          match skipSpace rest with
          | [] => none
          | u :: rest =>
            if u = unit '\x7d' then some ([(key, tree)], rest)
            else if u = unit ',' then
              (readMembers fuel rest).map fun (members, rest) => ((key, tree) :: members, rest)
            else none) = some (members, rest) ∧ FreshAfter keys members ∧
        AllAllowed (WrittenJson.partsMembers (depth + 1) members) ∧
        Counted maxSlots slots (WrittenJson.partsMembers (depth + 1) members).length slots' := by
  rw [@elements_scanned _ _ _ (unit '\x7d') (by decide) hvalue (depth + 1) (fun tree => (key, tree))
    (WrittenJson.partsMembers (depth + 1)) rfl (fun _ _ => rfl) (FreshAfter (key :: keys))
    (freshAfter_nil _) _ _ (fun slots text slots' rest =>
      hmembers depth slots (key :: keys) text slots' rest) slots slots' text rest]
  refine exists_congr fun members => and_congr_right fun hread => and_congr_left fun _ => ?_
  obtain ⟨tree, hhead⟩ := elements_read _ hread
  rw [hhead, freshAfter_cons, List.tail_cons]
  exact ⟨fun hfresh => ⟨hkey, hfresh⟩, fun hfresh => hfresh.2⟩

theorem membersScanned_succ (hvalue : ValueScanned maxSlots fuel)
    (hmembers : MembersScanned maxSlots fuel) : MembersScanned maxSlots (fuel + 1) := by
  intro depth slots keys text slots' rest
  rw [scanMembers, readMembers]
  cases hskip : skipSpace text with
  | nil => simp [scanString]
  | cons u more =>
    dsimp only
    by_cases hquote : u ≠ unit '"'
    · rw [if_pos hquote, scanString, if_pos hquote]
      simp
    rw [if_neg hquote]
    rw [ne_eq, not_not] at hquote
    rw [hquote]
    simp only [Option.bind_eq_bind]
    constructor
    · intro h
      obtain ⟨⟨key, left⟩, hstring, h⟩ := Option.bind_eq_some_iff.1 h
      obtain ⟨hunits, hwell⟩ := (scanString_iff _ _ _).1 hstring
      rw [hunits, Option.bind_some]
      dsimp only at h ⊢
      split at h
      · cases h
      rename_i hnew
      rw [not_or] at hnew
      cases hmark : skipSpace left with
      | nil =>
        rw [hmark] at h
        cases h
      | cons v left =>
        rw [hmark] at h
        dsimp only at h ⊢
        split at h
        · cases h
        rename_i hcolon
        rw [if_neg hcolon]
        exact (member_scanned ⟨hnew.1, hwell, hnew.2⟩ hvalue hmembers).1 h
    · rintro ⟨members, hread, hrest⟩
      obtain ⟨⟨units, left⟩, hunits, h⟩ := Option.bind_eq_some_iff.1 hread
      dsimp only at h
      cases hmark : skipSpace left with
      | nil =>
        rw [hmark] at h
        cases h
      | cons v left' =>
        rw [hmark] at h
        dsimp only at h
        split at h
        · cases h
        rename_i hcolon
        obtain ⟨tree, hhead⟩ := @elements_read fuel _ (unit '\x7d')
          (fun tree => ((⟨units⟩ : JsString), tree)) (readMembers fuel) left' rest members h
        have hkey := hrest.1
        rw [hhead, freshAfter_cons] at hkey
        obtain ⟨⟨hnew, hwell, hforbidden⟩, -⟩ := hkey
        rw [(scanString_iff _ _ ⟨units⟩).2 ⟨hunits, hwell⟩, Option.bind_some]
        dsimp only
        rw [if_neg (by rw [not_or]; exact ⟨hnew, hforbidden⟩), hmark]
        dsimp only
        rw [if_neg hcolon]
        exact (member_scanned ⟨hnew, hwell, hforbidden⟩ hvalue hmembers).2 ⟨members, h, hrest⟩

/-- The scan and the reader go through a text in step. -/
theorem scanned (maxSlots : Option Nat) (fuel : Nat) :
    ValueScanned maxSlots fuel ∧ ItemsScanned maxSlots fuel ∧ MembersScanned maxSlots fuel := by
  induction fuel with
  | zero =>
    refine ⟨?_, ?_, ?_⟩
    · intro depth slots text slots' rest _
      simp [scanValue, readValue]
    · intro depth slots text slots' rest
      simp [scanItems, readItems]
    · intro depth slots keys text slots' rest
      simp [scanMembers, readMembers]
  | succ fuel ih =>
    obtain ⟨hvalue, hitems, hmembers⟩ := ih
    exact ⟨valueScanned_succ hitems hmembers, itemsScanned_succ hvalue hitems,
      membersScanned_succ hvalue hmembers⟩

end RoutedJson
