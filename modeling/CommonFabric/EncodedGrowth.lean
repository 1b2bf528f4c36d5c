import CommonFabric.WireText

/-!
# The growth of an encoding

A patched document is weighed by what its patch changed. Two values that share subtrees are
walked together, and what they share is passed over by identity: the walk goes down where an
encoding is that of its members, with commas between them, and encodes anything else whole.
-/

open WireText JsonText

/-- A value as it stands in memory: its objects have addresses, which say which are the same. -/
inductive Held where
  /-- A value with no identity beside its content. -/
  | leaf (value : FabricValue)
  | array (address : Nat) (slots : List (Option Held))
  | record (address : Nat) (fields : List (JsString × Held))
  /-- An object of the data model's own classes. -/
  | special (address : Nat) (value : FabricValue)

namespace Held

mutual
def value : Held → FabricValue
  | .leaf value => value
  | .array _ slots => .array (valueSlots slots)
  | .record _ fields => .record (valueFields fields)
  | .special _ value => value

def valueSlots : List (Option Held) → List (Option FabricValue)
  | [] => []
  | none :: rest => none :: valueSlots rest
  | some held :: rest => some held.value :: valueSlots rest

def valueFields : List (JsString × Held) → List (JsString × FabricValue)
  | [] => []
  | (key, held) :: rest => (key, held.value) :: valueFields rest
end

mutual
/-- The value's objects stand in a memory that says what each address holds, and the names of
its records are distinct. -/
def InMemory (memory : Nat → FabricValue) : Held → Prop
  | .leaf _ => True
  | .array address slots =>
    memory address = (Held.array address slots).value ∧ InMemorySlots memory slots
  | .record address fields => memory address = (Held.record address fields).value ∧
      (fields.map (·.1)).Nodup ∧ InMemoryFields memory fields
  | .special address value => memory address = value

def InMemorySlots (memory : Nat → FabricValue) : List (Option Held) → Prop
  | [] => True
  | none :: rest => InMemorySlots memory rest
  | some held :: rest => held.InMemory memory ∧ InMemorySlots memory rest

def InMemoryFields (memory : Nat → FabricValue) : List (JsString × Held) → Prop
  | [] => True
  | (_, held) :: rest => held.InMemory memory ∧ InMemoryFields memory rest
end

/-- `Object.is`. -/
def same : Held → Held → Bool
  | .leaf v, .leaf w => v = w
  | .array a _, .array b _ => a = b
  | .record a _, .record b _ => a = b
  | .special a _, .special b _ => a = b
  | _, _ => false

variable {memory : Nat → FabricValue} {x y : Held}

/-- The same object is the same value. -/
theorem same_value (hx : x.InMemory memory) (hy : y.InMemory memory) (h : x.same y = true) :
    x.value = y.value := by
  cases x with
  | leaf v => cases y with
    | leaf w =>
      rw [same, decide_eq_true_eq] at h
      rw [h]
    | _ => cases h
  | array a slots => cases y with
    | array b slots' =>
      rw [same, decide_eq_true_eq] at h
      rw [InMemory] at hx hy
      rw [← hx.1, ← hy.1, h]
    | _ => cases h
  | record a fields => cases y with
    | record b fields' =>
      rw [same, decide_eq_true_eq] at h
      rw [InMemory] at hx hy
      rw [← hx.1, ← hy.1, h]
    | _ => cases h
  | special a v => cases y with
    | special b w =>
      rw [same, decide_eq_true_eq] at h
      rw [InMemory] at hx hy
      rw [value, value, ← hx, ← hy, h]
    | _ => cases h

theorem valueFields_eq (fields : List (JsString × Held)) :
    valueFields fields = fields.map fun field => (field.1, field.2.value) := by
  induction fields with
  | nil => rfl
  | cons field rest ih => rw [valueFields, ih]; rfl

theorem inMemory_of_mem {fields : List (JsString × Held)} (h : InMemoryFields memory fields)
    {field : JsString × Held} (hmem : field ∈ fields) : field.2.InMemory memory := by
  induction fields with
  | nil => cases hmem
  | cons first rest ih =>
    rw [InMemoryFields] at h
    cases List.mem_cons.1 hmem with
    | inl heq => rw [heq]; exact h.1
    | inr hrest => exact ih h.2 hrest

theorem inMemorySlots_iff {elements : List Held} :
    InMemorySlots memory (elements.map some) ↔ ∀ x ∈ elements, x.InMemory memory := by
  induction elements with
  | nil => exact ⟨fun _ x hx => (by cases hx), fun _ => trivial⟩
  | cons x rest ih => rw [List.map_cons, InMemorySlots, ih, List.forall_mem_cons]

end Held

namespace Growth

def isUnsafeObjectKey (key : JsString) : Bool := key = "__proto__" || key = "constructor"

mutual
/-- The codec refuses a record with a name that the runtime reserves, at any depth. -/
def encodable : FabricValue → Bool
  | .array slots => encodableSlots slots
  | .record fields => encodableFields fields
  | .special _ state => encodable state
  | _ => true

def encodableSlots : List (Option FabricValue) → Bool
  | [] => true
  | none :: rest => encodableSlots rest
  | some value :: rest => encodable value && encodableSlots rest

def encodableFields : List (JsString × FabricValue) → Bool
  | [] => true
  | (key, value) :: rest => !isUnsafeObjectKey key && encodable value && encodableFields rest
end

def storedByteLength (text : JsString) : Nat := utf8Length text.units

/-- `encodedByteLength`; none where the codec throws. -/
def encodedByteLength (value : FabricValue) : Option Int :=
  if encodable value then some (storedByteLength (encodeMemoryBoundary value)) else none

/-- `budgetedByteLength`, with what is left of the budget. -/
def budgetedByteLength (value : FabricValue) : Nat → Option (Int × Nat)
  | 0 => none
  | remaining + 1 => (encodedByteLength value).map fun length => (length, remaining)

def separatorBytes (count : Nat) : Int := if 1 < count then count - 1 else 0

def memberBytes (key : JsString) (value : FabricValue) (budget : Nat) : Option (Int × Nat) := do
  let (length, budget) ← budgetedByteLength (.record [(key, value)]) budget
  let empty ← encodedByteLength (.record [])
  return (length - empty, budget)

def elementBytes (value : FabricValue) (budget : Nat) : Option (Int × Nat) := do
  let (length, budget) ← budgetedByteLength (.array [some value]) budget
  let empty ← encodedByteLength (.array [])
  return (length - empty, budget)

/-- The members of a plain record none of whose names starts with a slash. -/
def composingRecord : Held → Option (List (JsString × Held))
  | .record _ fields => if fields.any fun field => field.1.startsWith "/" then none else some fields
  | _ => none

/-- The elements of an array with no hole. -/
def holelessArray : Held → Option (List Held)
  | .array _ slots => slots.mapM id
  | _ => none

def member? (fields : List (JsString × Held)) (key : JsString) : Option Held :=
  (fields.find? fun field => field.1 = key).map (·.2)

/-- How many elements two arrays share at their start. -/
def sharedPrefix : List Held → List Held → Nat
  | x :: xs, y :: ys => if x.same y then sharedPrefix xs ys + 1 else 0
  | _, _ => 0

/-- The part of two arrays that is not shared at either end: where it starts, and where it ends
in each. -/
structure Trimmed where
  start : Nat
  beforeEnd : Nat
  afterEnd : Nat

def trimShared (before after : List Held) : Trimmed :=
  let start := sharedPrefix before after
  let ending := sharedPrefix (before.drop start).reverse (after.drop start).reverse
  ⟨start, before.length - ending, after.length - ending⟩

/-- The bytes of some elements. -/
def elementsBytes : List Held → Nat → Option (Int × Nat)
  | [], budget => some (0, budget)
  | x :: rest, budget => do
    let (bytes, budget) ← elementBytes x.value budget
    let (more, budget) ← elementsBytes rest budget
    return (bytes + more, budget)

/-- The bytes of the members whose names the other record lacks. -/
def missingBytes (other : List (JsString × Held)) : List (JsString × Held) → Nat →
    Option (Int × Nat)
  | [], budget => some (0, budget)
  | (key, held) :: rest, budget =>
    if (member? other key).isSome then missingBytes other rest budget
    else do
      let (bytes, budget) ← memberBytes key held.value budget
      let (more, budget) ← missingBytes other rest budget
      return (bytes + more, budget)

/-- Each side encoded whole. -/
def wholeGrowth (before after : FabricValue) (budget : Nat) : Option (Int × Nat) := do
  let (after, budget) ← budgetedByteLength after budget
  let (before, budget) ← budgetedByteLength before budget
  return (after - before, budget)

mutual
/-- How many more bytes the second value takes than the first, and what is left of the budget;
none where it throws. -/
def encodedGrowth (before : Held) : Held → Nat → Option (Int × Nat)
  | .record address fields, budget =>
    if before.same (.record address fields) then some (0, budget)
    else match composingRecord before, composingRecord (.record address fields) with
      | some beforeFields, some _ => do
        let (grown, budget) ← membersGrowth beforeFields fields budget
        let (lost, budget) ← missingBytes fields beforeFields budget
        return (separatorBytes fields.length - separatorBytes beforeFields.length + grown - lost,
          budget)
      | _, _ => wholeGrowth before.value (Held.record address fields).value budget
  | .array address slots, budget =>
    if before.same (.array address slots) then some (0, budget)
    else match holelessArray before, holelessArray (.array address slots) with
      | some xs, some ys => do
        let trimmed := trimShared xs ys
        let separators := separatorBytes ys.length - separatorBytes xs.length
        if trimmed.beforeEnd = trimmed.afterEnd then do
          let (grown, budget) ← elementsGrowth trimmed 0 xs slots budget
          return (separators + grown, budget)
        else do
          let (lost, budget) ←
            elementsBytes ((xs.take trimmed.beforeEnd).drop trimmed.start) budget
          let (gained, budget) ←
            elementsBytes ((ys.take trimmed.afterEnd).drop trimmed.start) budget
          return (separators - lost + gained, budget)
      | _, _ => wholeGrowth before.value (Held.array address slots).value budget
  | .leaf value, budget =>
    if before.same (.leaf value) then some (0, budget) else wholeGrowth before.value value budget
  | .special address value, budget =>
    if before.same (.special address value) then some (0, budget)
    else wholeGrowth before.value value budget

/-- What the members of a record add to those of another that they stand for, or by themselves. -/
def membersGrowth (before : List (JsString × Held)) : List (JsString × Held) → Nat →
    Option (Int × Nat)
  | [], budget => some (0, budget)
  | (key, held) :: rest, budget => do
    let (grown, budget) ← match member? before key with
      | some held' => encodedGrowth held' held budget
      | none => memberBytes key held.value budget
    let (more, budget) ← membersGrowth before rest budget
    return (grown + more, budget)

/-- What the elements add, of the part that is not shared, from an index on. -/
def elementsGrowth (trimmed : Trimmed) (index : Nat) : List Held → List (Option Held) → Nat →
    Option (Int × Nat)
  | x :: xs, some y :: ys, budget => do
    let (grown, budget) ← if trimmed.start ≤ index ∧ index < trimmed.beforeEnd then
      encodedGrowth x y budget else some (0, budget)
    let (more, budget) ← elementsGrowth trimmed (index + 1) xs ys budget
    return (grown + more, budget)
  | _, _, budget => some (0, budget)
end

variable {before after : FabricValue} {growth : Int}

theorem storedByteLength_encode (value : FabricValue) :
    storedByteLength (encodeMemoryBoundary value) = 5 + (encodeValue value).bytes := by
  have htag : utf8Length WIRE_TAG.units = 5 := by decide
  have hunits : (encodeMemoryBoundary value).units = WIRE_TAG.units ++ render (encodeValue value) :=
    rfl
  rw [storedByteLength, hunits, utf8Length_append _ (detached_render _), utf8Length_render, htag]

variable {budget left : Nat} {xs ys elements : List Held} {held : Held}
  {fields : List (JsString × Held)} {key : JsString}

theorem budgetedByteLength_ok {value : FabricValue} {length : Int}
    (h : budgetedByteLength value budget = some (length, left)) :
    encodable value = true ∧ length = 5 + (encodeValue value).bytes := by
  cases budget with
  | zero => cases h
  | succ budget =>
    rw [budgetedByteLength, encodedByteLength] at h
    cases hencodable : encodable value with
    | false => rw [hencodable] at h; cases h
    | true =>
      rw [hencodable, if_pos rfl] at h
      cases h
      exact ⟨rfl, by rw [storedByteLength_encode]; rfl⟩

/-- The second value encodes where the first does, in so many more bytes. -/
structure Grows (before after : FabricValue) (growth : Int) : Prop where
  encodable : encodable after = encodable before
  bytes : ((encodeValue after).bytes : Int) = (encodeValue before).bytes + growth

theorem Grows.of_eq (h : before = after) : Grows before after 0 := by
  rw [h]
  exact ⟨rfl, (Int.add_zero _).symm⟩

theorem Grows.encodedByteLength (h : Grows before after growth) :
    encodedByteLength after = (encodedByteLength before).map (· + growth) := by
  have hbytes := h.bytes
  rw [Growth.encodedByteLength, Growth.encodedByteLength, h.encodable]
  cases Growth.encodable before with
  | false => rfl
  | true =>
    simp only [if_true, Option.map_some, storedByteLength_encode, Option.some.injEq]
    omega

theorem wholeGrowth_grows
    (h : wholeGrowth before after budget = some (growth, left)) : Grows before after growth := by
  obtain ⟨⟨afterLength, budget'⟩, hafter, h⟩ := Option.bind_eq_some_iff.1 h
  obtain ⟨⟨beforeLength, budget''⟩, hbefore, h⟩ := Option.bind_eq_some_iff.1 h
  cases h
  obtain ⟨hafterOk, rfl⟩ := budgetedByteLength_ok hafter
  obtain ⟨hbeforeOk, rfl⟩ := budgetedByteLength_ok hbefore
  exact ⟨by rw [hafterOk, hbeforeOk], by omega⟩

/-- The bytes of the elements, without commas. -/
def elementsSize (elements : List Held) : Int :=
  (elements.map fun x => ((encodeValue x.value).bytes : Int)).sum

@[simp] theorem elementsSize_nil : elementsSize [] = 0 := rfl

@[simp] theorem elementsSize_cons (x : Held) (rest : List Held) :
    elementsSize (x :: rest) = (encodeValue x.value).bytes + elementsSize rest := rfl

@[simp] theorem elementsSize_append (xs ys : List Held) :
    elementsSize (xs ++ ys) = elementsSize xs + elementsSize ys := by
  simp [elementsSize]

theorem elementsSize_congr (h : xs.map Held.value = ys.map Held.value) :
    elementsSize xs = elementsSize ys := by
  have hsize (elements : List Held) : elementsSize elements =
      ((elements.map Held.value).map fun v => ((encodeValue v).bytes : Int)).sum := by
    rw [List.map_map]
    rfl
  rw [hsize, hsize, h]

def elementsEncodable (elements : List Held) : Bool := elements.all fun x => encodable x.value

theorem elementsEncodable_congr (h : xs.map Held.value = ys.map Held.value) :
    elementsEncodable xs = elementsEncodable ys := by
  have hall (elements : List Held) : elementsEncodable elements =
      (elements.map Held.value).all encodable := by
    rw [List.all_map]
    rfl
  rw [hall, hall, h]

theorem holelessArray_value (h : holelessArray held = some elements) :
    held.value = .array ((elements.map Held.value).map some) ∧
      ∃ address, held = .array address (elements.map some) := by
  cases held with
  | array address slots =>
    have hslots : slots = elements.map some := by
      rw [holelessArray] at h
      clear * - h
      induction slots generalizing elements with
      | nil => cases h; rfl
      | cons slot rest ih =>
        rw [List.mapM_cons] at h
        obtain ⟨x, hx, h⟩ := Option.bind_eq_some_iff.1 h
        obtain ⟨xs, hxs, h⟩ := Option.bind_eq_some_iff.1 h
        cases h
        rw [List.map_cons, ← ih hxs]
        exact congrArg (· :: rest) hx
    have hvalue : ∀ elements : List Held,
        Held.valueSlots (elements.map some) = (elements.map Held.value).map some := by
      intro elements
      induction elements with
      | nil => rfl
      | cons x rest ih =>
        rw [List.map_cons, Held.valueSlots, ih]
        rfl
    rw [hslots, Held.value, hvalue]
    exact ⟨rfl, address, rfl⟩
  | _ => cases h

theorem bytes_elements (elements : List Held) :
    ((encodeValue (.array ((elements.map Held.value).map some))).bytes : Int) =
      2 + elementsSize elements + separatorBytes elements.length := by
  rw [WireText.bytes_array]
  have hsum : ∀ elements : List Held,
      ((((elements.map Held.value).map fun v => (encodeValue v).bytes + 1).sum : Nat) : Int) =
        elementsSize elements + elements.length := by
    intro elements
    induction elements with
    | nil => rfl
    | cons x rest ih =>
      simp only [List.map_cons, List.sum_cons, elementsSize_cons, List.length_cons]
      push_cast at ih ⊢
      omega
  have hthis := hsum elements
  have hnonneg : 0 ≤ elementsSize elements := by
    apply List.sum_nonneg
    intro n hn
    obtain ⟨x, _, rfl⟩ := List.mem_map.1 hn
    exact Int.natCast_nonneg _
  unfold separatorBytes
  cases elements with
  | nil => rfl
  | cons x rest =>
    rw [List.length_cons] at hthis ⊢
    split
    · omega
    · omega

theorem encodable_elements (elements : List Held) :
    encodable (.array ((elements.map Held.value).map some)) = elementsEncodable elements := by
  rw [encodable]
  induction elements with
  | nil => rfl
  | cons x rest ih =>
    rw [List.map_cons, List.map_cons, encodableSlots, ih]
    rfl

theorem elementBytes_ok {value : FabricValue} {bytes : Int}
    (h : elementBytes value budget = some (bytes, left)) :
    encodable value = true ∧ bytes = (encodeValue value).bytes := by
  obtain ⟨⟨length, budget'⟩, hlength, h⟩ := Option.bind_eq_some_iff.1 h
  obtain ⟨empty, hempty, h⟩ := Option.bind_eq_some_iff.1 h
  cases h
  obtain ⟨hencodable, rfl⟩ := budgetedByteLength_ok hlength
  have hone := bytes_elements [.leaf value]
  have hnone : encodedByteLength (.array []) = some 7 := by decide
  rw [hnone] at hempty
  cases hempty
  simp only [encodable, encodableSlots, Bool.and_true] at hencodable
  simp only [List.map_cons, List.map_nil, Held.value, elementsSize_cons, elementsSize_nil,
    List.length_singleton, separatorBytes] at hone
  exact ⟨hencodable, by rw [hone]; simp; omega⟩

theorem elementsBytes_ok : ∀ {budget left : Nat} {bytes : Int},
    elementsBytes elements budget = some (bytes, left) →
      elementsEncodable elements = true ∧ bytes = elementsSize elements := by
  induction elements with
  | nil => intro budget left bytes h; cases h; exact ⟨rfl, rfl⟩
  | cons x rest ih =>
    intro budget left bytes h
    obtain ⟨⟨one, budget'⟩, hone, h⟩ := Option.bind_eq_some_iff.1 h
    obtain ⟨⟨more, budget''⟩, hmore, h⟩ := Option.bind_eq_some_iff.1 h
    cases h
    obtain ⟨hencodable, rfl⟩ := elementBytes_ok hone
    obtain ⟨hrest, rfl⟩ := ih hmore
    rw [elementsEncodable, List.all_cons, hencodable, Bool.true_and]
    exact ⟨hrest, rfl⟩

/-- The bytes of a member, without its comma. -/
def memberSize (key : JsString) (value : FabricValue) : Int :=
  utf8Length (quoted key) + 1 + (encodeValue value).bytes

def membersSize (fields : List (JsString × Held)) : Int :=
  (fields.map fun field => memberSize field.1 field.2.value).sum

@[simp] theorem membersSize_nil : membersSize [] = 0 := rfl

@[simp] theorem membersSize_cons (field : JsString × Held) (rest : List (JsString × Held)) :
    membersSize (field :: rest) = memberSize field.1 field.2.value + membersSize rest := rfl

def memberEncodable (field : JsString × Held) : Bool :=
  !isUnsafeObjectKey field.1 && encodable field.2.value

def Composes (fields : List (JsString × Held)) : Prop :=
  ∀ field ∈ fields, field.1.startsWith "/" = false

theorem composingRecord_ok (h : composingRecord held = some fields) :
    Composes fields ∧ ∃ address, held = .record address fields := by
  cases held with
  | record address fields' =>
    rw [composingRecord] at h
    split at h
    · cases h
    · rename_i hslash
      cases h
      refine ⟨fun field hfield => ?_, address, rfl⟩
      by_contra hstarts
      exact hslash (List.any_eq_true.2 ⟨field, hfield, by simpa using hstarts⟩)
  | _ => cases h

theorem bytes_members (h : Composes fields) :
    ((encodeValue (.record (Held.valueFields fields))).bytes : Int) =
      2 + membersSize fields + separatorBytes fields.length := by
  have hslash : anySlashKey (Held.valueFields fields) = false := by
    rw [anySlashKey, List.any_eq_false, Held.valueFields_eq]
    intro field hfield
    obtain ⟨field', hfield', rfl⟩ := List.mem_map.1 hfield
    simpa using h field' hfield'
  rw [WireText.bytes_record hslash]
  have hsum : ∀ fields : List (JsString × Held),
      ((Fields.weight WireText.memberBytes (Held.valueFields fields) : Nat) : Int) =
        membersSize fields + fields.length := by
    intro fields
    induction fields with
    | nil => rfl
    | cons field rest ih =>
      obtain ⟨key, held⟩ := field
      rw [Held.valueFields, Fields.weight, List.map_cons, List.sum_cons, ← Fields.weight,
        membersSize_cons, List.length_cons, WireText.memberBytes, memberSize]
      push_cast at ih ⊢
      omega
  have hthis := hsum fields
  have hnonneg : 0 ≤ membersSize fields := by
    apply List.sum_nonneg
    intro n hn
    obtain ⟨field, _, rfl⟩ := List.mem_map.1 hn
    rw [memberSize]
    omega
  unfold separatorBytes
  cases fields with
  | nil => rfl
  | cons field rest =>
    rw [List.length_cons] at hthis ⊢
    split
    · omega
    · omega

theorem encodable_members (fields : List (JsString × Held)) :
    encodable (.record (Held.valueFields fields)) = fields.all memberEncodable := by
  rw [encodable]
  induction fields with
  | nil => rfl
  | cons field rest ih =>
    obtain ⟨key, held⟩ := field
    rw [Held.valueFields, encodableFields, ih, List.all_cons]
    rfl

theorem memberBytes_ok {bytes : Int} (hkey : key.startsWith "/" = false)
    (h : memberBytes key held.value budget = some (bytes, left)) :
    memberEncodable (key, held) = true ∧ bytes = memberSize key held.value := by
  obtain ⟨⟨length, budget'⟩, hlength, h⟩ := Option.bind_eq_some_iff.1 h
  obtain ⟨empty, hempty, h⟩ := Option.bind_eq_some_iff.1 h
  cases h
  obtain ⟨hencodable, rfl⟩ := budgetedByteLength_ok hlength
  have hcomposes : Composes [(key, held)] := by
    intro field hfield
    rw [List.mem_singleton.1 hfield]
    exact hkey
  have hone := bytes_members hcomposes
  have hnone : encodedByteLength (.record []) = some 7 := by decide
  rw [hnone] at hempty
  cases hempty
  simp only [encodable, encodableFields, Bool.and_true] at hencodable
  simp only [Held.valueFields, membersSize_cons, membersSize_nil, List.length_singleton,
    separatorBytes] at hone
  exact ⟨hencodable, by rw [hone]; simp; omega⟩

/-- The members of one record whose names another has, in the order of the other's. -/
def standing (before fields : List (JsString × Held)) : List (JsString × Held) :=
  (fields.map (·.1)).filterMap fun key => (member? before key).map ((key, ·))

theorem member?_iff (hnodup : (fields.map (·.1)).Nodup) : member? fields key = some held ↔
    (key, held) ∈ fields := by
  induction fields with
  | nil => exact ⟨fun h => (by cases h), fun h => (by cases h)⟩
  | cons field rest ih =>
    obtain ⟨key', held'⟩ := field
    rw [List.map_cons, List.nodup_cons] at hnodup
    rw [member?, List.find?_cons, List.mem_cons, ← ih hnodup.2]
    by_cases hkey : key' = key
    · subst hkey
      have hnone : member? rest key' ≠ some held := fun h =>
        hnodup.1 (List.mem_map.2 ⟨_, (ih hnodup.2).1 h, rfl⟩)
      simp [hnone, eq_comm]
    · have hne : ¬key = key' := fun h => hkey h.symm
      simp [hkey, hne, member?]

theorem mem_of_member? (h : member? fields key = some held) : (key, held) ∈ fields := by
  obtain ⟨field, hfield, rfl⟩ := Option.map_eq_some_iff.1 h
  have hkey := List.find?_some hfield
  rw [decide_eq_true_eq] at hkey
  rw [← hkey]
  exact List.mem_of_find?_eq_some hfield

theorem mem_standing {before : List (JsString × Held)}
    (hnodup : (before.map (·.1)).Nodup) {member : JsString × Held} :
    member ∈ standing before fields ↔ member ∈ before ∧ member.1 ∈ fields.map (·.1) := by
  obtain ⟨key, held⟩ := member
  rw [standing, List.mem_filterMap]
  constructor
  · rintro ⟨key', hkey', h⟩
    obtain ⟨held', hheld', heq⟩ := Option.map_eq_some_iff.1 h
    cases heq
    exact ⟨(member?_iff hnodup).1 hheld', hkey'⟩
  · rintro ⟨hmem, hkey⟩
    exact ⟨key, hkey, by rw [(member?_iff hnodup).2 hmem]; rfl⟩

theorem member?_isSome :
    (member? fields key).isSome = true ↔ key ∈ fields.map (·.1) := by
  rw [member?, Option.isSome_map, List.find?_isSome, List.mem_map]
  simp only [decide_eq_true_eq]

/-- A record's members are those that stand in another and those that it lacks. -/
theorem standing_perm {before : List (JsString × Held)} (hbefore : (before.map (·.1)).Nodup)
    (hfields : (fields.map (·.1)).Nodup) :
    (standing before fields ++ before.filter fun field => !(member? fields field.1).isSome).Perm
      before := by
  have hmembers : before.Nodup := hbefore.of_map _
  have hstanding : (standing before fields).Nodup := by
    apply hfields.filterMap
    intro key key' member h h'
    obtain ⟨_, _, rfl⟩ := Option.map_eq_some_iff.1 (Option.mem_def.1 h)
    obtain ⟨_, _, heq⟩ := Option.map_eq_some_iff.1 (Option.mem_def.1 h')
    exact (congrArg Prod.fst heq).symm
  have hshared : (standing before fields).Perm
      (before.filter fun field => (member? fields field.1).isSome) := by
    apply (List.perm_ext_iff_of_nodup hstanding (hmembers.filter _)).2
    intro member
    rw [mem_standing hbefore, List.mem_filter, member?_isSome]
  exact (hshared.append_right _).trans (List.filter_append_perm _ _)

theorem membersSize_perm {fields' : List (JsString × Held)} (h : fields.Perm fields') :
    membersSize fields = membersSize fields' := (h.map _).sum_eq

theorem membersSize_append (fields fields' : List (JsString × Held)) :
    membersSize (fields ++ fields') = membersSize fields + membersSize fields' := by
  simp [membersSize]

theorem missingBytes_ok {other : List (JsString × Held)} :
    ∀ {budget left : Nat} {bytes : Int}, Composes fields →
      missingBytes other fields budget = some (bytes, left) →
      (fields.filter fun field => !(member? other field.1).isSome).all memberEncodable = true ∧
        bytes = membersSize (fields.filter fun field => !(member? other field.1).isSome) := by
  induction fields with
  | nil => intro budget left bytes _ h; cases h; exact ⟨rfl, rfl⟩
  | cons field rest ih =>
    obtain ⟨key, held⟩ := field
    intro budget left bytes hcomposes h
    have hrest : Composes rest := fun field hfield =>
      hcomposes field (List.mem_cons_of_mem _ hfield)
    rw [missingBytes] at h
    rw [List.filter_cons]
    cases hother : (member? other key).isSome with
    | true =>
      rw [hother, if_pos rfl] at h
      exact ih hrest h
    | false =>
      rw [hother, if_neg Bool.false_ne_true] at h
      obtain ⟨⟨one, budget'⟩, hone, h⟩ := Option.bind_eq_some_iff.1 h
      obtain ⟨⟨more, budget''⟩, hmore, h⟩ := Option.bind_eq_some_iff.1 h
      cases h
      obtain ⟨hencodable, rfl⟩ := memberBytes_ok (hcomposes _ List.mem_cons_self) hone
      obtain ⟨hall, rfl⟩ := ih hrest hmore
      rw [Bool.not_false, if_pos rfl, List.all_cons, hencodable, hall, membersSize_cons]
      exact ⟨rfl, rfl⟩

/-- What a record's members add to those of another that they stand for. -/
structure MembersGrow (before fields : List (JsString × Held)) (grown : Int) : Prop where
  encodable : fields.all memberEncodable = (standing before fields).all memberEncodable
  size : membersSize fields = membersSize (standing before fields) + grown

theorem MembersGrow.record {before : List (JsString × Held)} {grown lost : Int}
    (h : MembersGrow before fields grown) (hbefore : (before.map (·.1)).Nodup)
    (hfields : (fields.map (·.1)).Nodup) (hcomposesBefore : Composes before)
    (hcomposes : Composes fields) (hlost : missingBytes fields before budget = some (lost, left)) :
    Grows (.record (Held.valueFields before)) (.record (Held.valueFields fields))
      (separatorBytes fields.length - separatorBytes before.length + grown - lost) := by
  obtain ⟨hmissing, hmissingSize⟩ := missingBytes_ok hcomposesBefore hlost
  have hperm := standing_perm hbefore hfields
  constructor
  · rw [encodable_members, encodable_members, h.encodable, ← hperm.all_eq, List.all_append,
      hmissing, Bool.and_true]
  · have hsize := h.size
    have htotal := membersSize_perm hperm
    rw [membersSize_append, ← hmissingSize] at htotal
    rw [bytes_members hcomposes, bytes_members hcomposesBefore]
    omega

theorem MembersGrow.standing {before rest : List (JsString × Held)}
    {held' : Held} {one more : Int} (h : MembersGrow before rest more)
    (hbefore : member? before key = some held') (hone : Grows held'.value held.value one) :
    MembersGrow before ((key, held) :: rest) (one + more) := by
  have hstanding : Growth.standing before ((key, held) :: rest) =
      (key, held') :: Growth.standing before rest := by
    rw [Growth.standing, List.map_cons, List.filterMap_cons, hbefore]
    rfl
  constructor
  · rw [hstanding, List.all_cons, List.all_cons, h.encodable, memberEncodable, memberEncodable,
      hone.encodable]
  · have hbytes := hone.bytes
    have hsize := h.size
    rw [hstanding, membersSize_cons, membersSize_cons, memberSize, memberSize]
    dsimp only
    omega

theorem MembersGrow.added {before rest : List (JsString × Held)}
    {more : Int} (h : MembersGrow before rest more) (hbefore : member? before key = none)
    (hencodable : memberEncodable (key, held) = true) :
    MembersGrow before ((key, held) :: rest) (memberSize key held.value + more) := by
  have hstanding : Growth.standing before ((key, held) :: rest) = Growth.standing before rest := by
    rw [Growth.standing, List.map_cons, List.filterMap_cons_none (by rw [hbefore]; rfl)]
    rfl
  constructor
  · rw [hstanding, List.all_cons, hencodable, Bool.true_and, h.encodable]
  · have hsize := h.size
    rw [hstanding, membersSize_cons]
    dsimp only
    omega

variable {memory : Nat → FabricValue}

theorem sharedPrefix_spec (xs ys : List Held) (hxs : ∀ x ∈ xs, x.InMemory memory)
    (hys : ∀ y ∈ ys, y.InMemory memory) :
    sharedPrefix xs ys ≤ xs.length ∧ sharedPrefix xs ys ≤ ys.length ∧
      (xs.take (sharedPrefix xs ys)).map Held.value =
        (ys.take (sharedPrefix xs ys)).map Held.value := by
  induction xs generalizing ys with
  | nil => exact ⟨Nat.zero_le _, Nat.zero_le _, rfl⟩
  | cons x xs ih =>
    cases ys with
    | nil => exact ⟨Nat.zero_le _, Nat.zero_le _, rfl⟩
    | cons y ys =>
      rw [sharedPrefix]
      cases hsame : x.same y with
      | false => exact ⟨Nat.zero_le _, Nat.zero_le _, rfl⟩
      | true =>
        obtain ⟨hleft, hright, hvalues⟩ := ih ys
          (fun x' hx' => hxs x' (List.mem_cons_of_mem _ hx'))
          (fun y' hy' => hys y' (List.mem_cons_of_mem _ hy'))
        rw [if_pos rfl, List.length_cons, List.length_cons, List.take_succ_cons,
          List.take_succ_cons, List.map_cons, List.map_cons, hvalues,
          Held.same_value (hxs x List.mem_cons_self) (hys y List.mem_cons_self) hsame]
        exact ⟨Nat.succ_le_succ hleft, Nat.succ_le_succ hright, rfl⟩

/-- Outside of the part that is not shared, two arrays hold the same values. -/
structure Trimmed.Of (trimmed : Trimmed) (xs ys : List Held) : Prop where
  start_before : trimmed.start ≤ trimmed.beforeEnd
  start_after : trimmed.start ≤ trimmed.afterEnd
  before : trimmed.beforeEnd ≤ xs.length
  after : trimmed.afterEnd ≤ ys.length
  tail : xs.length - trimmed.beforeEnd = ys.length - trimmed.afterEnd
  starts : (xs.take trimmed.start).map Held.value = (ys.take trimmed.start).map Held.value
  ends : (xs.drop trimmed.beforeEnd).map Held.value =
    (ys.drop trimmed.afterEnd).map Held.value

theorem trimShared_spec (hxs : ∀ x ∈ xs, x.InMemory memory)
    (hys : ∀ y ∈ ys, y.InMemory memory) : (trimShared xs ys).Of xs ys := by
  obtain ⟨hleft, hright, hstarts⟩ := sharedPrefix_spec xs ys hxs hys
  obtain ⟨hleft', hright', hends⟩ := sharedPrefix_spec
    (xs.drop (sharedPrefix xs ys)).reverse (ys.drop (sharedPrefix xs ys)).reverse
    (fun x hx => hxs x (List.mem_of_mem_drop (List.mem_reverse.1 hx)))
    (fun y hy => hys y (List.mem_of_mem_drop (List.mem_reverse.1 hy)))
  unfold trimShared
  dsimp only
  generalize sharedPrefix xs ys = start at *
  generalize sharedPrefix (xs.drop start).reverse (ys.drop start).reverse = ending at *
  rw [List.length_reverse, List.length_drop] at hleft' hright'
  have hdrop (elements : List Held) (h : ending ≤ elements.length - start)
      (hstart : start ≤ elements.length) :
      (elements.drop (elements.length - ending)).map Held.value =
        (((elements.drop start).reverse.take ending).map Held.value).reverse := by
    rw [← List.map_reverse, List.take_reverse, List.reverse_reverse, List.drop_drop,
      List.length_drop]
    congr 2
    omega
  constructor
  · dsimp only; omega
  · dsimp only; omega
  · exact Nat.sub_le _ _
  · exact Nat.sub_le _ _
  · dsimp only; omega
  · exact hstarts
  · dsimp only
    rw [hdrop xs hleft' hleft, hdrop ys hright' hright, hends]

theorem split_ends {start ending : Nat} (h : start ≤ ending) (elements : List Held) :
    elements =
      elements.take start ++ (elements.take ending).drop start ++ elements.drop ending := by
  have hstart : elements.take start = (elements.take ending).take start := by
    rw [List.take_take, Nat.min_eq_left h]
  rw [hstart, List.take_append_drop, List.take_append_drop]

theorem elementsEncodable_append (xs ys : List Held) :
    elementsEncodable (xs ++ ys) = (elementsEncodable xs && elementsEncodable ys) :=
  List.all_append

theorem array_grows {grown : Int} (hencodable : elementsEncodable ys = elementsEncodable xs)
    (hsize : elementsSize ys = elementsSize xs + grown) :
    Grows (.array ((xs.map Held.value).map some)) (.array ((ys.map Held.value).map some))
      (separatorBytes ys.length - separatorBytes xs.length + grown) := by
  constructor
  · rw [encodable_elements, encodable_elements, hencodable]
  · rw [bytes_elements, bytes_elements]
    omega

/-- The parts that are not shared, each side by itself. -/
theorem Trimmed.Of.apart {trimmed : Trimmed} (h : trimmed.Of xs ys)
    {budget' : Nat} {lost gained : Int}
    (hlost : elementsBytes ((xs.take trimmed.beforeEnd).drop trimmed.start) budget =
      some (lost, budget'))
    (hgained : elementsBytes ((ys.take trimmed.afterEnd).drop trimmed.start) budget' =
      some (gained, left)) :
    elementsEncodable ys = elementsEncodable xs ∧
      elementsSize ys = elementsSize xs + (gained - lost) := by
  obtain ⟨hlostOk, rfl⟩ := elementsBytes_ok hlost
  obtain ⟨hgainedOk, rfl⟩ := elementsBytes_ok hgained
  have hxs := split_ends h.start_before xs
  have hys := split_ends h.start_after ys
  constructor
  · rw [hxs, hys, elementsEncodable_append, elementsEncodable_append, elementsEncodable_append,
      elementsEncodable_append, hlostOk, hgainedOk,
      elementsEncodable_congr h.starts, elementsEncodable_congr h.ends]
  · have hx := congrArg elementsSize hxs
    have hy := congrArg elementsSize hys
    rw [elementsSize_append, elementsSize_append] at hx hy
    have hstarts := elementsSize_congr h.starts
    have hends := elementsSize_congr h.ends
    omega

/-- Outside of the part that is not shared, elements at one index have one value. -/
theorem Trimmed.Of.outside {trimmed : Trimmed} (h : trimmed.Of xs ys)
    (hend : trimmed.beforeEnd = trimmed.afterEnd) {n : Nat}
    (hn : ¬(trimmed.start ≤ n ∧ n < trimmed.beforeEnd)) :
    (xs.map Held.value)[n]? = (ys.map Held.value)[n]? := by
  by_cases hstart : n < trimmed.start
  · have hstarts := congrArg (·[n]?) h.starts
    rwa [List.map_take, List.map_take, List.getElem?_take_of_lt hstart,
      List.getElem?_take_of_lt hstart] at hstarts
  · have hends := congrArg (·[n - trimmed.beforeEnd]?) h.ends
    have hn' : trimmed.beforeEnd + (n - trimmed.beforeEnd) = n := by omega
    rwa [← hend, List.map_drop, List.map_drop, List.getElem?_drop, List.getElem?_drop,
      hn'] at hends

theorem inMemory_before {address : Nat}
    (h : (Held.array address (elements.map some)).InMemory memory) :
    ∀ x ∈ elements, x.InMemory memory := by
  rw [Held.InMemory] at h
  exact Held.inMemorySlots_iff.1 h.2

/-- A value that is the same takes as many bytes, and of others the rest of the walk tells. -/
theorem grows_unless_same {before after : Held} {growth : Int}
    {answer : Option (Int × Nat)} (hbefore : before.InMemory memory)
    (hafter : after.InMemory memory)
    (h : (if before.same after then some (0, budget) else answer) = some (growth, left))
    (hanswer : answer = some (growth, left) → Grows before.value after.value growth) :
    Grows before.value after.value growth := by
  split at h
  case isTrue hsame =>
    cases h
    exact .of_eq (Held.same_value hbefore hafter hsame)
  case isFalse => exact hanswer h

mutual
/-- What the walk answers is what the encoding grows by. -/
theorem encodedGrowth_grows : ∀ (after : Held) {before : Held} {budget left : Nat} {growth : Int},
    before.InMemory memory → after.InMemory memory →
      encodedGrowth before after budget = some (growth, left) →
        Grows before.value after.value growth
  | .leaf value, before, budget, left, growth, hbefore, hafter, h => by
    rw [encodedGrowth] at h
    exact grows_unless_same hbefore hafter h wholeGrowth_grows
  | .special address value, before, budget, left, growth, hbefore, hafter, h => by
    rw [encodedGrowth] at h
    exact grows_unless_same hbefore hafter h wholeGrowth_grows
  | .record address fields, before, budget, left, growth, hbefore, hafter, h => by
    rw [encodedGrowth] at h
    apply grows_unless_same hbefore hafter h
    clear h
    intro h
    cases hb : composingRecord before with
    | none =>
      simp only [hb] at h
      exact wholeGrowth_grows h
    | some beforeFields =>
      cases ha : composingRecord (.record address fields) with
      | none =>
        simp only [hb, ha] at h
        exact wholeGrowth_grows h
      | some afterFields =>
        simp only [hb, ha] at h
        obtain ⟨⟨grown, budget'⟩, hgrown, h⟩ := Option.bind_eq_some_iff.1 h
        obtain ⟨⟨lost, budget''⟩, hlost, h⟩ := Option.bind_eq_some_iff.1 h
        cases h
        obtain ⟨hcomposesBefore, address', rfl⟩ := composingRecord_ok hb
        obtain ⟨hcomposes, _, heq⟩ := composingRecord_ok ha
        cases heq
        rw [Held.InMemory] at hbefore hafter
        have hmembers := membersGrowth_spec fields hbefore.2.2 hafter.2.2 hcomposes hgrown
        exact hmembers.record hbefore.2.1 hafter.2.1 hcomposesBefore hcomposes hlost
  | .array address slots, before, budget, left, growth, hbefore, hafter, h => by
    rw [encodedGrowth] at h
    apply grows_unless_same hbefore hafter h
    clear h
    intro h
    cases hb : holelessArray before with
    | none =>
      simp only [hb] at h
      exact wholeGrowth_grows h
    | some xs =>
      cases ha : holelessArray (.array address slots) with
      | none =>
        simp only [hb, ha] at h
        exact wholeGrowth_grows h
      | some ys =>
        simp only [hb, ha] at h
        obtain ⟨hxsValue, address', rfl⟩ := holelessArray_value hb
        obtain ⟨hysValue, _, heq⟩ := holelessArray_value ha
        cases heq
        have htrimmed := trimShared_spec (inMemory_before hbefore) (inMemory_before hafter)
        rw [hxsValue, hysValue]
        by_cases hend : (trimShared xs ys).beforeEnd = (trimShared xs ys).afterEnd
        · rw [if_pos hend] at h
          obtain ⟨⟨grown, budget'⟩, hgrown, h⟩ := Option.bind_eq_some_iff.1 h
          cases h
          have hlength : xs.length = ys.length := by
            have hbeforeEnd := htrimmed.before
            have hafterEnd := htrimmed.after
            have htail := htrimmed.tail
            omega
          obtain ⟨hencodable, hsize⟩ := elementsGrowth_spec (ys.map some) rfl hlength
            (inMemory_before hbefore) (inMemory_before hafter)
            (fun n hn => htrimmed.outside hend (by rwa [Nat.zero_add] at hn)) hgrown
          exact array_grows hencodable hsize
        · rw [if_neg hend] at h
          obtain ⟨⟨lost, budget'⟩, hlost, h⟩ := Option.bind_eq_some_iff.1 h
          obtain ⟨⟨gained, budget''⟩, hgained, h⟩ := Option.bind_eq_some_iff.1 h
          cases h
          obtain ⟨hencodable, hsize⟩ := htrimmed.apart hlost hgained
          have hgrows := array_grows hencodable hsize
          have hsum (n : Int) : n - lost + gained = n + (gained - lost) := by omega
          rw [hsum]
          exact hgrows

theorem membersGrowth_spec : ∀ (fields : List (JsString × Held)) {before : List (JsString × Held)}
    {budget left : Nat} {grown : Int}, Held.InMemoryFields memory before →
      Held.InMemoryFields memory fields → Composes fields →
      membersGrowth before fields budget = some (grown, left) → MembersGrow before fields grown
  | [], before, budget, left, grown, _, _, _, h => by
    rw [membersGrowth] at h
    cases h
    exact ⟨rfl, rfl⟩
  | (key, held) :: rest, before, budget, left, grown, hbefore, hafter, hcomposes, h => by
    rw [membersGrowth] at h
    rw [Held.InMemoryFields] at hafter
    have hrest : Composes rest := fun field hfield =>
      hcomposes field (List.mem_cons_of_mem _ hfield)
    cases hmember : member? before key with
    | some held' =>
      simp only [hmember] at h
      obtain ⟨⟨one, budget'⟩, hone, h⟩ := Option.bind_eq_some_iff.1 h
      obtain ⟨⟨more, budget''⟩, hmore, h⟩ := Option.bind_eq_some_iff.1 h
      cases h
      have hheld' : held'.InMemory memory :=
        Held.inMemory_of_mem hbefore (mem_of_member? hmember)
      have hmembers := membersGrowth_spec rest hbefore hafter.2 hrest hmore
      exact hmembers.standing hmember (encodedGrowth_grows held hheld' hafter.1 hone)
    | none =>
      simp only [hmember] at h
      obtain ⟨⟨one, budget'⟩, hone, h⟩ := Option.bind_eq_some_iff.1 h
      obtain ⟨⟨more, budget''⟩, hmore, h⟩ := Option.bind_eq_some_iff.1 h
      cases h
      obtain ⟨hencodable, rfl⟩ := memberBytes_ok (hcomposes _ List.mem_cons_self) hone
      have hmembers := membersGrowth_spec rest hbefore hafter.2 hrest hmore
      exact hmembers.added hmember hencodable

theorem elementsGrowth_spec : ∀ (slots : List (Option Held)) {trimmed : Trimmed} {index : Nat}
    {xs ys : List Held} {budget left : Nat} {grown : Int}, slots = ys.map some →
      xs.length = ys.length → (∀ x ∈ xs, x.InMemory memory) → (∀ y ∈ ys, y.InMemory memory) →
      (∀ n, ¬(trimmed.start ≤ index + n ∧ index + n < trimmed.beforeEnd) →
        (xs.map Held.value)[n]? = (ys.map Held.value)[n]?) →
      elementsGrowth trimmed index xs slots budget = some (grown, left) →
      elementsEncodable ys = elementsEncodable xs ∧ elementsSize ys = elementsSize xs + grown
  | [], trimmed, index, xs, ys, budget, left, grown, hslots, hlength, _, _, _, h => by
    cases ys with
    | cons y ys => cases hslots
    | nil =>
      cases xs with
      | cons x xs => cases hlength
      | nil =>
        rw [elementsGrowth] at h
        · cases h
          exact ⟨rfl, rfl⟩
        · intro x xs y ys hx hy
          cases hx
  | none :: rest, trimmed, index, xs, ys, budget, left, grown, hslots, _, _, _, _, _ => by
    cases ys with
    | nil => cases hslots
    | cons y ys => cases hslots
  | some y :: rest, trimmed, index, xs, ys, budget, left, grown, hslots, hlength, hxs, hys, hout,
      h => by
    cases ys with
    | nil => cases hslots
    | cons y' ys =>
      cases hslots
      cases xs with
      | nil => cases hlength
      | cons x xs =>
        rw [elementsGrowth] at h
        obtain ⟨one, budget', hgrows, h⟩ : ∃ one budget', Grows x.value y.value one ∧
            ((elementsGrowth trimmed (index + 1) xs (ys.map some) budget').bind
              fun more => some (one + more.1, more.2)) = some (grown, left) := by
          by_cases hin : trimmed.start ≤ index ∧ index < trimmed.beforeEnd
          · rw [if_pos hin] at h
            obtain ⟨⟨one, budget'⟩, hone, h⟩ := Option.bind_eq_some_iff.1 h
            exact ⟨one, budget', encodedGrowth_grows y (hxs x List.mem_cons_self)
              (hys y List.mem_cons_self) hone, h⟩
          · rw [if_neg hin] at h
            have hvalue := hout 0 hin
            simp only [List.map_cons, List.getElem?_cons_zero, Option.some.injEq] at hvalue
            exact ⟨0, budget, .of_eq hvalue, h⟩
        obtain ⟨⟨more, budget''⟩, hmore, h⟩ := Option.bind_eq_some_iff.1 h
        cases h
        obtain ⟨hencodable, hsize⟩ := elementsGrowth_spec (ys.map some) rfl
          (Nat.succ.inj hlength) (fun x' hx' => hxs x' (List.mem_cons_of_mem _ hx'))
          (fun y' hy' => hys y' (List.mem_cons_of_mem _ hy'))
          (fun n hn => hout (n + 1) (by rwa [Nat.add_assoc, Nat.add_comm 1] at hn)) hmore
        have hbytes := hgrows.bytes
        constructor
        · rw [elementsEncodable, elementsEncodable, List.all_cons, List.all_cons,
            hgrows.encodable]
          exact congrArg _ hencodable
        · rw [elementsSize_cons, elementsSize_cons]
          omega
end

/-- The growth is that of the encoded length, and the second value encodes where the first does. -/
theorem encodedGrowth_exact {before after : Held} (hbefore : before.InMemory memory)
    (hafter : after.InMemory memory) {budget left : Nat} {growth : Int}
    (h : encodedGrowth before after budget = some (growth, left)) :
    encodedByteLength after.value = (encodedByteLength before.value).map (· + growth) :=
  (encodedGrowth_grows after hbefore hafter h).encodedByteLength

/-- A list of two texts, one of them an object's. -/
def shortList : Held :=
  .record 0 [("list", .array 1 [some (.record 2 [("a", .leaf (.string "b"))]),
    some (.leaf (.string "c"))])]

/-- The list with a text put in, and a name beside it. -/
def longList : Held :=
  .record 3 [("list", .array 4 [some (.record 2 [("a", .leaf (.string "b"))]),
    some (.leaf (.string "\"é")), some (.leaf (.string "c"))]), ("né", .leaf .null)]

def listMemory : Nat → FabricValue
  | 0 => shortList.value
  | 1 => .array [some (.record [("a", .string "b")]), some (.string "c")]
  | 2 => .record [("a", .string "b")]
  | 3 => longList.value
  | _ => .array [some (.record [("a", .string "b")]), some (.string "\"é"), some (.string "c")]

theorem encodedGrowth_exact_list : encodedGrowth shortList longList 64 = some (18, 62) ∧
    encodedByteLength longList.value = (encodedByteLength shortList.value).map (· + 18) := by
  have hshort : shortList.InMemory listMemory :=
    ⟨rfl, by decide, ⟨rfl, ⟨rfl, by decide, trivial, trivial⟩, trivial, trivial⟩, trivial⟩
  have hlong : longList.InMemory listMemory :=
    ⟨rfl, by decide, ⟨rfl, ⟨rfl, by decide, trivial, trivial⟩, trivial, trivial, trivial⟩, trivial,
      trivial⟩
  have hgrowth : encodedGrowth shortList longList 64 = some (18, 62) := by decide +kernel
  exact ⟨hgrowth, encodedGrowth_exact hshort hlong hgrowth⟩

end Growth
