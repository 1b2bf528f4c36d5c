import CommonFabric.JsValue

/-!
# Structural equality of values in memory

A value in memory is more than its content: its objects have identities, and its instances have
classes. `deepEqual` walks two of them in step, and asks a comparator about each pair of objects
before it reads their members. What it accepts is a relation of its own, two values alike at each
place they share.
-/

/-- A value as it is held in memory. An object has an address, and two that are one object are the
same here, address and all. -/
inductive HeldValue where
  | undefined
  | null
  | bool (b : Bool)
  | number (n : JsNumber)
  | string (s : JsString)
  | bigint (i : Int)
  | symbol (key : JsString)
  /-- An array by its slots; a slot that is `none` is a hole. -/
  | array (address : Nat) (slots : List (Option HeldValue))
  | record (address : Nat) (fields : List (JsString × HeldValue))
  /-- A `FabricPrimitive`, by its class and what it is made of, if that can be read at all. -/
  | primitive (address : Nat) (cls : JsString) (content : Option FabricValue)
  /-- A `FabricInstance`, by its class and what the codec of its class makes of it: a tag, and a
  state unless the codec is a stub. -/
  | wrapped (address : Nat) (cls : JsString) (tag : JsString) (state : Option HeldValue)

namespace HeldValue

abbrev Fields := List (JsString × HeldValue)

mutual
/-- `Object.is`. -/
def same : HeldValue → HeldValue → Bool
  | .undefined, .undefined => true
  | .null, .null => true
  | .bool a, .bool b => a = b
  | .number a, .number b => a = b
  | .string a, .string b => a = b
  | .bigint a, .bigint b => a = b
  | .symbol a, .symbol b => a = b
  | .array m xs, .array n ys => m = n && sameSlots xs ys
  | .record m f, .record n g => m = n && sameFields f g
  | .primitive m c p, .primitive n d q => m = n && c = d && p = q
  | .wrapped m c t s, .wrapped n d u r => m = n && c = d && t = u && sameSlot s r
  | _, _ => false

def sameSlot : Option HeldValue → Option HeldValue → Bool
  | none, none => true
  | some x, some y => same x y
  | _, _ => false

def sameSlots : List (Option HeldValue) → List (Option HeldValue) → Bool
  | [], [] => true
  | x :: xs, y :: ys => sameSlot x y && sameSlots xs ys
  | _, _ => false

def sameFields : Fields → Fields → Bool
  | [], [] => true
  | (k, x) :: f, (l, y) :: g => k = l && same x y && sameFields f g
  | _, _ => false
end

mutual
theorem same_iff : (a b : HeldValue) → (same a b = true ↔ a = b)
  | .undefined, b => by cases b <;> simp [same]
  | .null, b => by cases b <;> simp [same]
  | .bool a, b => by cases b <;> simp [same]
  | .number a, b => by cases b <;> simp [same]
  | .string a, b => by cases b <;> simp [same]
  | .bigint a, b => by cases b <;> simp [same]
  | .symbol a, b => by cases b <;> simp [same]
  | .primitive m c p, b => by cases b <;> simp [same, and_assoc]
  | .array m xs, b => by
    cases b with
    | array n ys => simp [same, sameSlots_iff xs ys]
    | _ => simp [same]
  | .record m f, b => by
    cases b with
    | record n g => simp [same, sameFields_iff f g]
    | _ => simp [same]
  | .wrapped m c t s, b => by
    cases b with
    | wrapped n d u r => simp [same, sameSlot_iff s r, and_assoc]
    | _ => simp [same]

theorem sameSlot_iff : (x y : Option HeldValue) → (sameSlot x y = true ↔ x = y)
  | none, y => by cases y <;> simp [sameSlot]
  | some x, y => by
    cases y with
    | none => simp [sameSlot]
    | some y => simp [sameSlot, same_iff x y]

theorem sameSlots_iff : (xs ys : List (Option HeldValue)) → (sameSlots xs ys = true ↔ xs = ys)
  | [], ys => by cases ys <;> simp [sameSlots]
  | x :: xs, ys => by
    cases ys with
    | nil => simp [sameSlots]
    | cons y ys => simp [sameSlots, sameSlot_iff x y, sameSlots_iff xs ys]

theorem sameFields_iff : (f g : Fields) → (sameFields f g = true ↔ f = g)
  | [], g => by cases g <;> simp [sameFields]
  | (k, x) :: f, g => by
    cases g with
    | nil => simp [sameFields]
    | cons e g =>
      obtain ⟨l, y⟩ := e
      simp [sameFields, same_iff x y, sameFields_iff f g]
end

instance : DecidableEq HeldValue := fun a b => decidable_of_iff _ (same_iff a b)

/-- `isObjectOrArray`. -/
def isObject : HeldValue → Bool
  | .array .. | .record .. | .primitive .. | .wrapped .. => true
  | _ => false

/-- `isFabricSpecialObject`. -/
def isSpecial : HeldValue → Bool
  | .primitive .. | .wrapped .. => true
  | _ => false

/-- What a value's `constructor` reads as. No record has a member of that name of its own. -/
inductive Constructor where
  | object
  | array
  | cls (name : JsString)
  deriving DecidableEq

def constructorOf : HeldValue → Option Constructor
  | .array .. => some .array
  | .record .. => some .object
  | .primitive _ cls _ => some (.cls cls)
  | .wrapped _ cls .. => some (.cls cls)
  | _ => none

/-- `Object.keys(value).length`. A special object has no enumerable property of its own. -/
def keyCount : HeldValue → Nat
  | .array _ slots => (slots.filter (·.isSome)).length
  | .record _ fields => fields.length
  | _ => 0

def isArray : HeldValue → Bool
  | .array .. => true
  | _ => false

def isRecord : HeldValue → Bool
  | .record .. => true
  | _ => false

/-- The names the runtime reserves, which no record has a member of. -/
def reservedNames : List JsString := ["__proto__", "constructor"]

mutual
/-- A `FabricValue`: the members of each record have names of their own, none of them reserved. -/
def Valid : HeldValue → Prop
  | .array _ slots => ValidSlots slots
  | .record _ fields => (fields.map (·.1)).Nodup ∧ (∀ f ∈ fields, f.1 ∉ reservedNames) ∧
      ValidFields fields
  | .wrapped _ _ _ state => ValidSlot state
  | _ => True

def ValidSlot : Option HeldValue → Prop
  | none => True
  | some value => Valid value

def ValidSlots : List (Option HeldValue) → Prop
  | [] => True
  | slot :: slots => ValidSlot slot ∧ ValidSlots slots

def ValidFields : Fields → Prop
  | [] => True
  | (_, value) :: fields => Valid value ∧ ValidFields fields
end

/-- The member of a record, its own as no name a record holds is inherited. -/
def get? (fields : Fields) (key : JsString) : Option HeldValue :=
  (fields.find? fun f => f.1 = key).map (·.2)

section Walk

variable {E : Type} (objectEqual : HeldValue → HeldValue → Except E (Option Bool))

/-- What settles a pair before its members are read, and else the walk of them. -/
def settled (a b : HeldValue) (walk : Except E Bool) : Except E Bool :=
  if a = b then .ok true
  else if !(a.isObject && b.isObject) then .ok false
  else match objectEqual a b with
    | .error e => .error e
    | .ok (some answer) => .ok answer
    | .ok none =>
      if constructorOf a ≠ constructorOf b then .ok false
      else if keyCount a ≠ keyCount b then .ok false
      else walk

mutual
/-- `deepEqual(a, b, objectEqual)`. -/
def deepEqual : HeldValue → HeldValue → Except E Bool
  | .array m xs, .array n ys =>
    settled objectEqual (.array m xs) (.array n ys)
      (if xs.length ≠ ys.length then .ok false else checkSlots xs ys)
  | .record m f, .record n g =>
    settled objectEqual (.record m f) (.record n g) (checkSpecificProps f g)
  | a, b => settled objectEqual a b (.ok (!(a.isArray || b.isArray)))

/-- The elements of two arrays of one length. A hole reads as `undefined`, and is told from one
that is stored. -/
def checkSlots : List (Option HeldValue) → List (Option HeldValue) → Except E Bool
  | none :: xs, none :: ys => checkSlots xs ys
  | some x :: xs, some y :: ys =>
    match deepEqual x y with
    | .ok true => checkSlots xs ys
    | answer => answer
  | none :: _, some _ :: _ => .ok false
  | some _ :: _, none :: _ => .ok false
  | _, _ => .ok true

def checkSpecificProps : Fields → Fields → Except E Bool
  | [], _ => .ok true
  | (key, x) :: f, g =>
    match get? g key with
    | none => .ok false
    | some y =>
      match deepEqual x y with
      | .ok true => checkSpecificProps f g
      | answer => answer
end

/-- What the walk accepts: values that are one and the same, objects the comparator calls equal,
and objects alike at each place. -/
inductive Alike : HeldValue → HeldValue → Prop
  | refl (a : HeldValue) : Alike a a
  | answered {a b : HeldValue} : a.isObject = true → b.isObject = true →
      objectEqual a b = .ok (some true) → Alike a b
  | array {m n : Nat} {xs ys : List (Option HeldValue)} :
      objectEqual (.array m xs) (.array n ys) = .ok none → xs.length = ys.length →
      (∀ i : Nat, xs[i]? = some none ↔ ys[i]? = some none) →
      (∀ (i : Nat) (x y : HeldValue), xs[i]? = some (some x) → ys[i]? = some (some y) → Alike x y) →
      Alike (.array m xs) (.array n ys)
  | record {m n : Nat} {f g : Fields} :
      objectEqual (.record m f) (.record n g) = .ok none → f.length = g.length →
      (∀ e ∈ f, (get? g e.1).isSome = true) →
      (∀ e ∈ f, ∀ y, get? g e.1 = some y → Alike e.2 y) →
      Alike (.record m f) (.record n g)
  | special {a b : HeldValue} : a.isSpecial = true → b.isSpecial = true →
      objectEqual a b = .ok none → constructorOf a = constructorOf b → Alike a b

variable {objectEqual}

theorem settled_iff {a b : HeldValue} {walk : Except E Bool} :
    settled objectEqual a b walk = .ok true ↔ a = b ∨ (a.isObject = true ∧ b.isObject = true ∧
      (objectEqual a b = .ok (some true) ∨ (objectEqual a b = .ok none ∧
        constructorOf a = constructorOf b ∧ keyCount a = keyCount b ∧ walk = .ok true))) := by
  unfold settled
  by_cases hsame : a = b
  · simp [hsame]
  · rw [if_neg hsame]
    by_cases hobjects : (a.isObject && b.isObject) = true
    · rw [hobjects, Bool.not_true, if_neg Bool.false_ne_true]
      rw [Bool.and_eq_true] at hobjects
      cases hanswer : objectEqual a b with
      | error e => simp [hsame]
      | ok answer =>
        cases answer with
        | some answer => simp [hsame, hobjects]
        | none =>
          by_cases hclass : constructorOf a = constructorOf b <;>
            by_cases hcount : keyCount a = keyCount b <;> simp [hsame, hobjects, hclass, hcount]
    · rw [Bool.not_eq_true] at hobjects
      rw [hobjects, Bool.not_false, if_pos rfl]
      rw [Bool.and_eq_false_iff] at hobjects
      rcases hobjects with h | h <;> simp [hsame, h]

theorem keyCount_slots {m n : Nat} {xs ys : List (Option HeldValue)} (hlength : xs.length = ys.length)
    (h : ∀ i : Nat, xs[i]? = some none ↔ ys[i]? = some none) :
    keyCount (.array m xs) = keyCount (.array n ys) := by
  have hmap : xs.map (·.isSome) = ys.map (·.isSome) := by
    apply List.ext_getElem?
    intro i
    rw [List.getElem?_map, List.getElem?_map]
    have hi := h i
    have hin : xs[i]? = none ↔ ys[i]? = none := by
      rw [List.getElem?_eq_none_iff, List.getElem?_eq_none_iff, hlength]
    cases hx : xs[i]? with
    | none => rw [hin.1 hx]
    | some x =>
      cases hy : ys[i]? with
      | none => rw [hin.2 hy] at hx; cases hx
      | some y =>
        rw [hx, hy] at hi
        cases x with
        | none => rw [Option.some.inj (hi.1 rfl)]
        | some x =>
          cases y with
          | none => cases hi.2 rfl
          | some y => rfl
  have hcount : ∀ zs : List (Option HeldValue), (zs.filter (·.isSome)).length =
      ((zs.map (·.isSome)).filter id).length := by
    intro zs
    rw [List.filter_map, List.length_map]
    rfl
  rw [keyCount, keyCount, hcount, hcount, hmap]

/-- Two objects of one class that are neither two arrays nor two records are special. -/
theorem special_of_constructor {a b : HeldValue} (ha : a.isObject = true) (hb : b.isObject = true)
    (harrays : (a.isArray || b.isArray) = false) (hrecords : (a.isRecord && b.isRecord) = false)
    (h : constructorOf a = constructorOf b) : a.isSpecial = true ∧ b.isSpecial = true := by
  cases a with
  | array => cases harrays
  | record =>
    cases b with
    | array => cases harrays
    | record => cases hrecords
    | primitive => cases h
    | wrapped => cases h
    | _ => cases hb
  | primitive =>
    cases b with
    | array => cases harrays
    | record => cases h
    | primitive => exact ⟨rfl, rfl⟩
    | wrapped => exact ⟨rfl, rfl⟩
    | _ => cases hb
  | wrapped =>
    cases b with
    | array => cases harrays
    | record => cases h
    | primitive => exact ⟨rfl, rfl⟩
    | wrapped => exact ⟨rfl, rfl⟩
    | _ => cases hb
  | _ => cases ha

theorem special_facts {a : HeldValue} (h : a.isSpecial = true) :
    a.isObject = true ∧ a.isArray = false ∧ a.isRecord = false ∧ keyCount a = 0 := by
  cases a with
  | primitive => exact ⟨rfl, rfl, rfl, rfl⟩
  | wrapped => exact ⟨rfl, rfl, rfl, rfl⟩
  | _ => cases h

theorem deepEqual_other {a b : HeldValue} (harrays : (a.isArray && b.isArray) = false)
    (hrecords : (a.isRecord && b.isRecord) = false) :
    deepEqual objectEqual a b = settled objectEqual a b (.ok (!(a.isArray || b.isArray))) := by
  unfold deepEqual
  split
  · cases harrays
  · cases hrecords
  · rfl

theorem deepEqual_iff_other {a b : HeldValue} (harrays : (a.isArray && b.isArray) = false)
    (hrecords : (a.isRecord && b.isRecord) = false) :
    deepEqual objectEqual a b = .ok true ↔ Alike objectEqual a b := by
  rw [deepEqual_other harrays hrecords, settled_iff]
  constructor
  · rintro (heq | ⟨ha, hb, hanswer | ⟨hnone, hclass, -, hwalk⟩⟩)
    · rw [heq]; exact .refl _
    · exact .answered ha hb hanswer
    · rw [Except.ok.injEq, Bool.not_eq_true'] at hwalk
      obtain ⟨hspecial, hspecial'⟩ := special_of_constructor ha hb hwalk hrecords hclass
      exact .special hspecial hspecial' hnone hclass
  · intro h
    cases h with
    | refl => exact .inl rfl
    | answered ha hb hanswer => exact .inr ⟨ha, hb, .inl hanswer⟩
    | array => cases harrays
    | record => cases hrecords
    | special ha hb hnone hclass =>
      obtain ⟨hobject, harray, -, hcount⟩ := special_facts ha
      obtain ⟨hobject', harray', -, hcount'⟩ := special_facts hb
      refine .inr ⟨hobject, hobject', .inr ⟨hnone, hclass, hcount.trans hcount'.symm, ?_⟩⟩
      rw [harray, harray']
      rfl

mutual
theorem deepEqual_iff : (a b : HeldValue) →
    (deepEqual objectEqual a b = .ok true ↔ Alike objectEqual a b)
  | .array m xs, b => by
    cases b with
    | array n ys =>
      rw [deepEqual, settled_iff]
      constructor
      · rintro (heq | ⟨ha, hb, hanswer | ⟨hnone, -, -, hwalk⟩⟩)
        · rw [heq]; exact .refl _
        · exact .answered ha hb hanswer
        · split at hwalk
          · cases hwalk
          · rename_i hlength
            rw [not_not] at hlength
            have hslots := (checkSlots_iff xs ys hlength).1 hwalk
            exact .array hnone hlength hslots.1 hslots.2
      · intro h
        cases h with
        | refl => exact .inl rfl
        | answered ha hb hanswer => exact .inr ⟨ha, hb, .inl hanswer⟩
        | array hnone hlength hholes halike =>
          refine .inr ⟨rfl, rfl, .inr ⟨hnone, rfl, keyCount_slots hlength hholes, ?_⟩⟩
          rw [if_neg (not_not.2 hlength)]
          exact (checkSlots_iff xs ys hlength).2 ⟨hholes, halike⟩
        | special ha _ _ _ => cases ha
    | _ => exact deepEqual_iff_other rfl rfl
  | .record m f, b => by
    cases b with
    | record n g =>
      rw [deepEqual, settled_iff]
      constructor
      · rintro (heq | ⟨ha, hb, hanswer | ⟨hnone, -, hcount, hwalk⟩⟩)
        · rw [heq]; exact .refl _
        · exact .answered ha hb hanswer
        · have hfields := (checkSpecificProps_iff f g).1 hwalk
          exact .record hnone hcount hfields.1 hfields.2
      · intro h
        cases h with
        | refl => exact .inl rfl
        | answered ha hb hanswer => exact .inr ⟨ha, hb, .inl hanswer⟩
        | record hnone hlength hown halike =>
          exact .inr ⟨rfl, rfl, .inr ⟨hnone, rfl, hlength,
            (checkSpecificProps_iff f g).2 ⟨hown, halike⟩⟩⟩
        | special ha _ _ _ => cases ha
    | _ => exact deepEqual_iff_other rfl rfl
  | .undefined, _ => deepEqual_iff_other rfl rfl
  | .null, _ => deepEqual_iff_other rfl rfl
  | .bool _, _ => deepEqual_iff_other rfl rfl
  | .number _, _ => deepEqual_iff_other rfl rfl
  | .string _, _ => deepEqual_iff_other rfl rfl
  | .bigint _, _ => deepEqual_iff_other rfl rfl
  | .symbol _, _ => deepEqual_iff_other rfl rfl
  | .primitive .., _ => deepEqual_iff_other rfl rfl
  | .wrapped .., _ => deepEqual_iff_other rfl rfl

theorem checkSlots_iff : (xs ys : List (Option HeldValue)) → xs.length = ys.length →
    (checkSlots objectEqual xs ys = .ok true ↔ (∀ i : Nat, xs[i]? = some none ↔ ys[i]? = some none) ∧
      ∀ (i : Nat) (x y : HeldValue), xs[i]? = some (some x) → ys[i]? = some (some y) →
        Alike objectEqual x y)
  | [], [], _ => by simp [checkSlots]
  | x :: xs, y :: ys, hlength => by
    have ih := checkSlots_iff xs ys (Nat.succ.inj hlength)
    have hsplit : checkSlots objectEqual (x :: xs) (y :: ys) = .ok true ↔
        ((x = none ↔ y = none) ∧ ∀ v w, x = some v → y = some w → Alike objectEqual v w) ∧
          checkSlots objectEqual xs ys = .ok true := by
      cases x with
      | none => cases y <;> simp [checkSlots]
      | some x =>
        cases y with
        | none => simp [checkSlots]
        | some y =>
          have hx := deepEqual_iff x y
          rw [checkSlots]
          cases hanswer : deepEqual objectEqual x y with
          | error e => simp_all
          | ok answer => cases answer <;> simp_all
    rw [hsplit, ih]
    constructor
    · rintro ⟨⟨hnone, halike⟩, hholes, hrest⟩
      constructor
      · intro i
        cases i with
        | zero => simpa using hnone
        | succ i => exact hholes i
      · intro i v w hv hw
        cases i with
        | zero => exact halike v w (Option.some.inj hv) (Option.some.inj hw)
        | succ i => exact hrest i v w hv hw
    · rintro ⟨hholes, halike⟩
      refine ⟨⟨by simpa using hholes 0, fun v w hv hw => ?_⟩, fun i => hholes (i + 1),
        fun i => halike (i + 1)⟩
      exact halike 0 v w (congrArg some hv) (congrArg some hw)

theorem checkSpecificProps_iff : (f g : Fields) →
    (checkSpecificProps objectEqual f g = .ok true ↔ (∀ e ∈ f, (get? g e.1).isSome = true) ∧
      ∀ e ∈ f, ∀ y, get? g e.1 = some y → Alike objectEqual e.2 y)
  | [], g => by simp [checkSpecificProps]
  | (key, x) :: f, g => by
    have ih := checkSpecificProps_iff f g
    rw [List.forall_mem_cons, List.forall_mem_cons, checkSpecificProps]
    cases hy : get? g key with
    | none => simp
    | some y =>
      dsimp only
      have hx := deepEqual_iff x y
      cases hanswer : deepEqual objectEqual x y with
      | error e => simp_all
      | ok answer => cases answer <;> simp_all
end

/-- Two values at one place of the two that are walked. -/
inductive Paired (a b : HeldValue) : HeldValue → HeldValue → Prop
  | refl : Paired a b a b
  | slot {m n : Nat} {xs ys : List (Option HeldValue)} {x y : HeldValue} (i : Nat) :
      Paired a b (.array m xs) (.array n ys) → xs[i]? = some (some x) → ys[i]? = some (some y) →
      Paired a b x y
  | member {m n : Nat} {f g : Fields} {x y : HeldValue} (key : JsString) :
      Paired a b (.record m f) (.record n g) → (key, x) ∈ f → get? g key = some y → Paired a b x y

theorem Paired.trans {a b x y u v : HeldValue} (h : Paired a b x y) (h' : Paired x y u v) :
    Paired a b u v := by
  induction h' with
  | refl => exact h
  | slot i _ hx hy ih => exact .slot i ih hx hy
  | member key _ hx hy ih => exact .member key ih hx hy

theorem settled_ok {a b : HeldValue} {walk : Except E Bool}
    (hanswer : a.isObject = true → b.isObject = true → ∃ answer, objectEqual a b = .ok answer)
    (hwalk : ∃ r, walk = .ok r) : ∃ r, settled objectEqual a b walk = .ok r := by
  unfold settled
  split
  · exact ⟨_, rfl⟩
  · split
    · exact ⟨_, rfl⟩
    · rename_i hobjects
      simp only [Bool.not_eq_true', Bool.not_eq_false, Bool.and_eq_true] at hobjects
      obtain ⟨answer, hanswer⟩ := hanswer hobjects.1 hobjects.2
      rw [hanswer]
      cases answer with
      | some answer => exact ⟨_, rfl⟩
      | none =>
        dsimp only
        split
        · exact ⟨_, rfl⟩
        · split
          · exact ⟨_, rfl⟩
          · exact hwalk

theorem deepEqual_ok_other {a b : HeldValue} (harrays : (a.isArray && b.isArray) = false)
    (hrecords : (a.isRecord && b.isRecord) = false)
    (h : a.isObject = true → b.isObject = true → ∃ answer, objectEqual a b = .ok answer) :
    ∃ r, deepEqual objectEqual a b = .ok r := by
  rw [deepEqual_other harrays hrecords]
  exact settled_ok h ⟨_, rfl⟩

mutual
/-- The walk returns where the comparator does. -/
theorem deepEqual_ok : (a b : HeldValue) →
    (∀ x y, Paired a b x y → x.isObject = true → y.isObject = true →
      ∃ answer, objectEqual x y = .ok answer) → ∃ r, deepEqual objectEqual a b = .ok r
  | .array m xs, b, h => by
    cases b with
    | array n ys =>
      rw [deepEqual]
      apply settled_ok (h _ _ .refl)
      split
      · exact ⟨_, rfl⟩
      · exact checkSlots_ok xs ys fun i x y hx hy u v huv => h u v ((Paired.slot i .refl hx hy).trans huv)
    | _ => exact deepEqual_ok_other rfl rfl (h _ _ .refl)
  | .record m f, b, h => by
    cases b with
    | record n g =>
      rw [deepEqual]
      apply settled_ok (h _ _ .refl)
      exact checkSpecificProps_ok f g fun key x y hx hy u v huv =>
        h u v ((Paired.member key .refl hx hy).trans huv)
    | _ => exact deepEqual_ok_other rfl rfl (h _ _ .refl)
  | .undefined, _, h => deepEqual_ok_other rfl rfl (h _ _ .refl)
  | .null, _, h => deepEqual_ok_other rfl rfl (h _ _ .refl)
  | .bool _, _, h => deepEqual_ok_other rfl rfl (h _ _ .refl)
  | .number _, _, h => deepEqual_ok_other rfl rfl (h _ _ .refl)
  | .string _, _, h => deepEqual_ok_other rfl rfl (h _ _ .refl)
  | .bigint _, _, h => deepEqual_ok_other rfl rfl (h _ _ .refl)
  | .symbol _, _, h => deepEqual_ok_other rfl rfl (h _ _ .refl)
  | .primitive .., _, h => deepEqual_ok_other rfl rfl (h _ _ .refl)
  | .wrapped .., _, h => deepEqual_ok_other rfl rfl (h _ _ .refl)

theorem checkSlots_ok : (xs ys : List (Option HeldValue)) →
    (∀ (i : Nat) (x y : HeldValue), xs[i]? = some (some x) → ys[i]? = some (some y) →
      ∀ u v, Paired x y u v → u.isObject = true → v.isObject = true →
        ∃ answer, objectEqual u v = .ok answer) → ∃ r, checkSlots objectEqual xs ys = .ok r
  | [], ys, _ => by cases ys <;> exact ⟨_, rfl⟩
  | x :: xs, [], _ => by cases x <;> exact ⟨_, rfl⟩
  | x :: xs, y :: ys, h => by
    have hrest := checkSlots_ok xs ys fun i => h (i + 1)
    cases x with
    | none =>
      cases y with
      | none => exact hrest
      | some y => exact ⟨_, rfl⟩
    | some x =>
      cases y with
      | none => exact ⟨_, rfl⟩
      | some y =>
        obtain ⟨r, hr⟩ := deepEqual_ok x y (h 0 x y rfl rfl)
        rw [checkSlots, hr]
        cases r with
        | true => exact hrest
        | false => exact ⟨_, rfl⟩

theorem checkSpecificProps_ok : (f g : Fields) →
    (∀ key x y, (key, x) ∈ f → get? g key = some y →
      ∀ u v, Paired x y u v → u.isObject = true → v.isObject = true →
        ∃ answer, objectEqual u v = .ok answer) → ∃ r, checkSpecificProps objectEqual f g = .ok r
  | [], g, _ => ⟨_, rfl⟩
  | (key, x) :: f, g, h => by
    have hrest := checkSpecificProps_ok f g fun k u v hu => h k u v (List.mem_cons_of_mem _ hu)
    rw [checkSpecificProps]
    cases hy : get? g key with
    | none => exact ⟨_, rfl⟩
    | some y =>
      obtain ⟨r, hr⟩ := deepEqual_ok x y (h key x y List.mem_cons_self hy)
      dsimp only
      rw [hr]
      cases r with
      | true => exact hrest
      | false => exact ⟨_, rfl⟩
end

end Walk

theorem mem_of_get? {fields : Fields} {key : JsString} {value : HeldValue}
    (h : get? fields key = some value) : (key, value) ∈ fields := by
  rw [get?, Option.map_eq_some_iff] at h
  obtain ⟨⟨k, v⟩, hfind, rfl⟩ := h
  have hkey := List.find?_some hfind
  rw [decide_eq_true_eq] at hkey
  rw [← hkey]
  exact List.mem_of_find?_eq_some hfind

/-- The comparator of a walk that was given none. -/
def noComparator (_ _ : HeldValue) : Except Empty (Option Bool) := .ok none

/-- `deepEqual(a, b)`. -/
def deepEquals (a b : HeldValue) : Bool :=
  match deepEqual noComparator a b with
  | .ok answer => answer
  | .error e => e.elim

theorem deepEquals_iff {a b : HeldValue} : deepEquals a b = true ↔ Alike noComparator a b := by
  rw [← deepEqual_iff, deepEquals]
  cases deepEqual noComparator a b with
  | ok answer => simp
  | error e => exact e.elim

theorem Alike.trans {a b c : HeldValue} (hab : Alike noComparator a b)
    (hbc : Alike noComparator b c) : Alike noComparator a c := by
  induction hab generalizing c with
  | refl => exact hbc
  | answered _ _ hanswer => cases hanswer
  | @array m n xs ys _ hlength hholes halike ih =>
    cases hbc with
    | refl => exact .array rfl hlength hholes halike
    | answered _ _ hanswer => cases hanswer
    | special hspecial => cases hspecial
    | array _ hlength' hholes' halike' =>
      refine .array rfl (hlength.trans hlength') (fun i => (hholes i).trans (hholes' i)) ?_
      intro i x z hx hz
      cases hy : ys[i]? with
      | none =>
        rw [List.getElem?_eq_none_iff, ← hlength, ← List.getElem?_eq_none_iff] at hy
        rw [hy] at hx
        cases hx
      | some slot =>
        cases slot with
        | none => rw [(hholes i).2 hy] at hx; cases hx
        | some y => exact ih i x y hx hy (halike' i y z hy hz)
  | @record m n f g _ hlength hown halike ih =>
    cases hbc with
    | refl => exact .record rfl hlength hown halike
    | answered _ _ hanswer => cases hanswer
    | special hspecial => cases hspecial
    | @record _ k _ h _ hlength' hown' halike' =>
      have hmember : ∀ e ∈ f, ∃ y, get? g e.1 = some y ∧ (e.1, y) ∈ g := by
        intro e he
        obtain ⟨y, hy⟩ := Option.isSome_iff_exists.1 (hown e he)
        exact ⟨y, hy, mem_of_get? hy⟩
      refine .record rfl (hlength.trans hlength') (fun e he => ?_) fun e he z hz => ?_
      · obtain ⟨y, -, hmem⟩ := hmember e he
        exact hown' (e.1, y) hmem
      · obtain ⟨y, hy, hmem⟩ := hmember e he
        exact ih e he y hy (halike' (e.1, y) hmem z hz)
  | special ha hb _ hclass =>
    cases hbc with
    | refl => exact .special ha hb rfl hclass
    | answered _ _ hanswer => cases hanswer
    | array => cases hb
    | record => cases hb
    | special _ hc _ hclass' => exact .special ha hc rfl (hclass.trans hclass')

end HeldValue
