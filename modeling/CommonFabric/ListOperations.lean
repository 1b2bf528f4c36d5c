import CommonFabric.JsMap
import CommonFabric.PatchFrame

/-!
# What the list operations do to a list

An `add-unique` looks the values it adds up in a set once they are many, and compares each
with the list's elements while they are few. A `remove-by-value` first asks whether there is
anything to remove, and then closes the list up over what it removes.
-/

namespace Patch

/-- `isObject`. -/
def isObject : FabricValue → Bool
  | .array _ => true
  | .record _ => true
  | .special _ _ => true
  | _ => false

/-- A set of values in buckets. -/
structure ValueSet where
  buckets : JsMap FabricValue (List FabricValue)
  holdsObjects : Bool

namespace ValueSet

variable (hashStringOf : FabricValue → JsString)

def empty : ValueSet := ⟨.empty, false⟩

/-- The key a value is bucketed under, as a `Map` tells keys apart: to it both zeroes are one. -/
def keyOf (value : FabricValue) : FabricValue :=
  if isObject value then .string (hashStringOf value)
  else match value with
    | .number .negZero => .number (.finite 0)
    | value => value

def bucketAt (s : ValueSet) (key : FabricValue) : List FabricValue := (s.buckets.get key).getD []

/-- The bucket that holds a value, and its position there. -/
def find (s : ValueSet) (value : FabricValue) : Option (List FabricValue × Nat) :=
  if !s.holdsObjects && isObject value then none
  else (s.buckets.get (keyOf hashStringOf value)).bind fun bucket =>
    (bucket.findIdx? (valueEqual · value)).map fun index => (bucket, index)

def has (s : ValueSet) (value : FabricValue) : Bool := (s.find hashStringOf value).isSome

/-- Adds a value, and says whether it was new. -/
def add (s : ValueSet) (value : FabricValue) : Bool × ValueSet :=
  if s.has hashStringOf value then (false, s)
  else
    let key := keyOf hashStringOf value
    (true, ⟨s.buckets.set key (s.bucketAt key ++ [value]), s.holdsObjects || isObject value⟩)

def delete (s : ValueSet) (value : FabricValue) : ValueSet :=
  match s.find hashStringOf value with
  | none => s
  | some (bucket, index) =>
    { s with buckets := s.buckets.set (keyOf hashStringOf value) (bucket.eraseIdx index) }

/-- The set holds exactly these values. -/
structure Holds (s : ValueSet) (values : List FabricValue) : Prop where
  nodup : values.Nodup
  bucket : ∀ key, s.bucketAt key = values.filter (keyOf hashStringOf · = key)
  objects : ∀ v ∈ values, isObject v = true → s.holdsObjects = true

variable {hashStringOf} {s : ValueSet} {values : List FabricValue}

theorem holds_empty : empty.Holds hashStringOf [] where
  nodup := List.nodup_nil
  bucket _ := rfl
  objects _ h := by cases h

/-- Where a value is, it is in the bucket of its key. -/
theorem Holds.mem_bucket (h : s.Holds hashStringOf values) (value : FabricValue) :
    value ∈ s.bucketAt (keyOf hashStringOf value) ↔ value ∈ values := by
  rw [h.bucket, List.mem_filter]
  simp

theorem Holds.find_eq (h : s.Holds hashStringOf values) (value : FabricValue) :
    s.find hashStringOf value =
      ((s.bucketAt (keyOf hashStringOf value)).findIdx? (valueEqual · value)).map
        fun index => (s.bucketAt (keyOf hashStringOf value), index) := by
  rw [find]
  by_cases hobject : (!s.holdsObjects && isObject value) = true
  · rw [if_pos hobject]
    rw [Bool.and_eq_true, Bool.not_eq_true'] at hobject
    have hnot : value ∉ s.bucketAt (keyOf hashStringOf value) := by
      intro hmem
      have := h.objects value ((h.mem_bucket value).1 hmem) hobject.2
      rw [hobject.1] at this
      cases this
    have hnone : (s.bucketAt (keyOf hashStringOf value)).findIdx? (valueEqual · value) = none := by
      rw [List.findIdx?_eq_none_iff]
      intro x hx
      rw [valueEqual, decide_eq_false_iff_not]
      rintro rfl
      exact hnot hx
    rw [hnone]
    rfl
  · rw [if_neg hobject, bucketAt]
    cases s.buckets.get (keyOf hashStringOf value) <;> rfl

theorem Holds.has_iff (h : s.Holds hashStringOf values) {value : FabricValue} :
    s.has hashStringOf value = true ↔ value ∈ values := by
  rw [has, h.find_eq, Option.isSome_map, List.findIdx?_isSome, List.any_eq_true,
    ← h.mem_bucket value]
  constructor
  · rintro ⟨x, hx, heq⟩
    rw [valueEqual, decide_eq_true_eq] at heq
    exact heq ▸ hx
  · intro hx
    exact ⟨value, hx, decide_eq_true rfl⟩

theorem bucketAt_set (key key' : FabricValue) (bucket : List FabricValue) (holdsObjects : Bool) :
    (ValueSet.mk (s.buckets.set key bucket) holdsObjects).bucketAt key' =
      if key = key' then bucket else s.bucketAt key' := by
  rw [bucketAt, JsMap.get_set]
  by_cases hk : key = key'
  · rw [if_pos hk, if_pos hk]
    rfl
  · rw [if_neg hk, if_neg hk]
    rfl

theorem Holds.add (h : s.Holds hashStringOf values) (value : FabricValue) :
    (s.add hashStringOf value).1 = decide (value ∉ values) ∧
      (s.add hashStringOf value).2.Holds hashStringOf
        (if value ∈ values then values else values ++ [value]) := by
  rw [ValueSet.add]
  by_cases hmem : value ∈ values
  · rw [if_pos (h.has_iff.2 hmem), if_pos hmem]
    exact ⟨by simp [hmem], h⟩
  · rw [if_neg (fun hhas => hmem (h.has_iff.1 hhas)), if_neg hmem]
    refine ⟨by simp [hmem], ?_⟩
    constructor
    · rw [List.nodup_append]
      exact ⟨h.nodup, List.nodup_singleton value, fun a ha b hb => by
        rw [List.mem_singleton.1 hb]
        rintro rfl
        exact hmem ha⟩
    · intro key
      rw [bucketAt_set, h.bucket, List.filter_append]
      by_cases hk : keyOf hashStringOf value = key
      · rw [if_pos hk, hk]
        simp [hk]
      · rw [if_neg hk, h.bucket]
        simp [hk]
    · intro v hv hobject
      rcases List.mem_append.1 hv with hv | hv
      · rw [h.objects v hv hobject, Bool.true_or]
      · rw [← List.mem_singleton.1 hv, hobject, Bool.or_true]

theorem Holds.delete (h : s.Holds hashStringOf values) (value : FabricValue) :
    (s.delete hashStringOf value).Holds hashStringOf (values.filter (· ≠ value)) := by
  have hobjects : ∀ v ∈ values.filter (· ≠ value), isObject v = true → s.holdsObjects = true :=
    fun v hv => h.objects v (List.mem_filter.1 hv).1
  rw [ValueSet.delete, h.find_eq]
  cases hindex : (s.bucketAt (keyOf hashStringOf value)).findIdx? (valueEqual · value) with
  | none =>
    have hnot : value ∉ values := by
      intro hmem
      have hfalse := List.findIdx?_eq_none_iff.1 hindex value ((h.mem_bucket value).2 hmem)
      rw [valueEqual, decide_eq_false_iff_not] at hfalse
      exact hfalse rfl
    have hsame : values.filter (· ≠ value) = values := by
      rw [List.filter_eq_self]
      intro v hv
      rw [decide_eq_true_eq]
      rintro rfl
      exact hnot hv
    rw [hsame]
    exact h
  | some index =>
    have herase : (s.bucketAt (keyOf hashStringOf value)).eraseIdx index =
        (s.bucketAt (keyOf hashStringOf value)).filter (· ≠ value) := by
      have hnodup : (s.bucketAt (keyOf hashStringOf value)).Nodup := by
        rw [h.bucket]
        exact h.nodup.filter _
      have heraseP := @List.eraseP_eq_eraseIdx _ (s.bucketAt (keyOf hashStringOf value))
        (valueEqual · value)
      rw [hindex] at heraseP
      calc (s.bucketAt (keyOf hashStringOf value)).eraseIdx index
          = (s.bucketAt (keyOf hashStringOf value)).eraseP (· == value) := heraseP.symm
        _ = (s.bucketAt (keyOf hashStringOf value)).erase value :=
          (List.erase_eq_eraseP' value _).symm
        _ = (s.bucketAt (keyOf hashStringOf value)).filter (· ≠ value) := by
          rw [hnodup.erase_eq_filter]
          apply List.filter_congr
          intro x _
          rw [Bool.eq_iff_iff, bne_iff_ne, decide_eq_true_eq]
    constructor
    · exact h.nodup.filter _
    · intro key
      rw [Option.map_some, bucketAt_set, herase]
      by_cases hk : keyOf hashStringOf value = key
      · rw [if_pos hk, hk, h.bucket, List.filter_filter, List.filter_filter]
        congr 1
        funext v
        rw [Bool.and_comm]
      · rw [if_neg hk, h.bucket, List.filter_filter]
        congr 1
        funext v
        by_cases hv : v = value
        · subst hv
          simp [hk]
        · simp [hv]
    · exact hobjects

end ValueSet

/-- The most distinct values that are compared with the list one by one. -/
def ADD_UNIQUE_SCAN_LIMIT : Nat := 16

section

variable (hashStringOf : FabricValue → JsString)

/-- `values.filter((value) => adding.add(value))`: the set and the values new to it. -/
def addValues : ValueSet → List FabricValue → ValueSet × List FabricValue
  | adding, [] => (adding, [])
  | adding, value :: rest =>
    let (new, adding) := adding.add hashStringOf value
    let (adding, distinct) := addValues adding rest
    (adding, if new then value :: distinct else distinct)

/-- The values no element equals, each compared with the list; a hole is no element. -/
def absentByScan (container : Slots) (distinct : List FabricValue) : List FabricValue :=
  distinct.filter fun value =>
    !container.any fun slot => slot.elim false fun existing => valueEqual existing value

/-- The values no element equals, each element looked up in the set of them. -/
def absentByLookup (adding : ValueSet) (container : Slots) (distinct : List FabricValue) :
    List FabricValue :=
  let adding := container.foldl
    (fun adding slot => slot.elim adding fun existing => adding.delete hashStringOf existing) adding
  distinct.filter fun value => adding.has hashStringOf value

/-- What `add-unique` makes of a list; a hole among the values is read as `undefined`. -/
def addUnique (container : Slots) (values : Slots) : Slots :=
  let (adding, distinct) := addValues hashStringOf .empty (values.map (·.getD .undefined))
  let absent := if distinct.length ≤ ADD_UNIQUE_SCAN_LIMIT then absentByScan container distinct
    else absentByLookup hashStringOf adding container distinct
  container ++ absent.map some

end

/-- The values that equal nothing before them: no element of the list and no value added. -/
def newcomers (before : Slots) : List FabricValue → List FabricValue
  | [] => []
  | value :: rest =>
    if some value ∈ before then newcomers before rest
    else value :: newcomers (before ++ [some value]) rest

variable {hashStringOf : FabricValue → JsString}

theorem addValues_spec (values : List FabricValue) {adding : ValueSet} {held : List FabricValue}
    (h : adding.Holds hashStringOf held) :
    (addValues hashStringOf adding values).2 = newcomers (held.map some) values ∧
      (addValues hashStringOf adding values).1.Holds hashStringOf
        (held ++ newcomers (held.map some) values) := by
  induction values generalizing adding held with
  | nil => exact ⟨rfl, by rw [newcomers, List.append_nil]; exact h⟩
  | cons value rest ih =>
    obtain ⟨hnew, hadded⟩ := h.add value
    have hiff : some value ∈ held.map some ↔ value ∈ held := by simp
    by_cases hmem : value ∈ held
    · rw [if_pos hmem] at hadded
      obtain ⟨hdistinct, hholds⟩ := ih hadded
      simp only [addValues, hnew, newcomers, hiff, hmem, not_true_eq_false, decide_false,
        Bool.false_eq_true, if_false, if_true]
      exact ⟨hdistinct, hholds⟩
    · rw [if_neg hmem] at hadded
      obtain ⟨hdistinct, hholds⟩ := ih hadded
      rw [List.map_append, List.map_singleton] at hdistinct hholds
      simp only [addValues, hnew, newcomers, hiff, hmem, not_false_eq_true, decide_true, if_false,
        if_true]
      exact ⟨by rw [hdistinct], by rw [List.append_cons]; exact hholds⟩

theorem absentByScan_eq (container : Slots) (distinct : List FabricValue) :
    absentByScan container distinct = distinct.filter fun value => some value ∉ container := by
  rw [absentByScan]
  apply List.filter_congr
  intro value _
  rw [Bool.eq_iff_iff, Bool.not_eq_true', List.any_eq_false, decide_eq_true_eq]
  constructor
  · intro h hmem
    exact h _ hmem (decide_eq_true rfl)
  · intro h slot hslot heq
    cases slot with
    | none => cases heq
    | some existing =>
      rw [Option.elim_some, valueEqual, decide_eq_true_eq] at heq
      exact h (heq ▸ hslot)

/-- What is left of a set after every element of the list is deleted from it. -/
theorem holds_deleted (container : Slots) {adding : ValueSet} {held : List FabricValue}
    (h : adding.Holds hashStringOf held) :
    (container.foldl (fun adding slot =>
      slot.elim adding fun existing => adding.delete hashStringOf existing) adding).Holds
        hashStringOf (held.filter fun value => some value ∉ container) := by
  induction container generalizing adding held with
  | nil => simpa using h
  | cons slot container ih =>
    rw [List.foldl_cons]
    cases slot with
    | none =>
      have hrest := ih h
      have hsame : (held.filter fun value => some value ∉ none :: container) =
          held.filter fun value => some value ∉ container := by
        apply List.filter_congr
        intro value _
        simp
      rw [hsame]
      exact hrest
    | some existing =>
      have hrest := ih (h.delete existing)
      rw [List.filter_filter] at hrest
      have hsame : (held.filter fun value => some value ∉ some existing :: container) =
          held.filter fun value => decide (some value ∉ container) && decide (value ≠ existing) := by
        apply List.filter_congr
        intro value _
        rw [Bool.and_comm]
        simp
      rw [hsame]
      exact hrest

theorem absentByLookup_eq {adding : ValueSet} {distinct : List FabricValue}
    (h : adding.Holds hashStringOf distinct) (container : Slots) :
    absentByLookup hashStringOf adding container distinct = absentByScan container distinct := by
  rw [absentByScan_eq, absentByLookup]
  apply List.filter_congr
  intro value hvalue
  rw [Bool.eq_iff_iff, (holds_deleted container h).has_iff, List.mem_filter]
  exact and_iff_right hvalue

theorem newcomers_congr {before before' : Slots}
    (h : ∀ value : FabricValue, some value ∈ before ↔ some value ∈ before')
    (values : List FabricValue) : newcomers before values = newcomers before' values := by
  induction values generalizing before before' with
  | nil => rfl
  | cons value rest ih =>
    rw [newcomers, newcomers]
    by_cases hmem : some value ∈ before
    · rw [if_pos hmem, if_pos ((h value).1 hmem)]
      exact ih h
    · rw [if_neg hmem, if_neg (fun hmem' => hmem ((h value).2 hmem'))]
      have hadded : ∀ v : FabricValue,
          some v ∈ before ++ [some value] ↔ some v ∈ before' ++ [some value] := by
        intro v
        rw [List.mem_append, List.mem_append, h]
      rw [ih hadded]

/-- Leaving out afterwards what stands in a list is leaving it out from the start. -/
theorem newcomers_filter (before more : Slots) (values : List FabricValue) :
    (newcomers before values).filter (fun value => some value ∉ more) =
      newcomers (before ++ more) values := by
  induction values generalizing before with
  | nil => rfl
  | cons value rest ih =>
    rw [newcomers, newcomers]
    by_cases hmem : some value ∈ before
    · rw [if_pos hmem, if_pos (List.mem_append_left _ hmem)]
      exact ih before
    · rw [if_neg hmem, List.filter_cons, ih]
      by_cases hmore : some value ∈ more
      · rw [if_neg (by simpa using hmore), if_pos (List.mem_append_right _ hmore)]
        apply newcomers_congr
        intro v
        simp only [List.mem_append, List.mem_singleton, Option.some.injEq]
        constructor
        · rintro ((h | rfl) | h)
          · exact .inl h
          · exact .inr hmore
          · exact .inr h
        · rintro (h | h)
          · exact .inl (.inl h)
          · exact .inr h
      · rw [if_pos (by simpa using hmore), if_neg (by simp [hmem, hmore])]
        congr 1
        apply newcomers_congr
        intro v
        simp only [List.mem_append, List.mem_singleton]
        tauto

theorem newcomers_eq_nil {before : Slots} {values : List FabricValue}
    (h : ∀ value ∈ values, some value ∈ before) : newcomers before values = [] := by
  induction values with
  | nil => rfl
  | cons value rest ih =>
    rw [newcomers, if_pos (h value List.mem_cons_self)]
    exact ih fun v hv => h v (List.mem_cons_of_mem _ hv)

variable {value : FabricValue}

/-- Every value is in the list or comes new to it. -/
theorem mem_newcomers (before : Slots) {values : List FabricValue}
    (h : value ∈ values) : some value ∈ before ++ (newcomers before values).map some := by
  induction values generalizing before with
  | nil => cases h
  | cons v rest ih =>
    rw [newcomers]
    by_cases hmem : some v ∈ before
    · rw [if_pos hmem]
      cases List.mem_cons.1 h with
      | inl heq => exact heq ▸ List.mem_append_left _ hmem
      | inr hrest => exact ih before hrest
    · rw [if_neg hmem, List.map_cons, List.append_cons]
      cases List.mem_cons.1 h with
      | inl heq =>
        rw [heq]
        exact List.mem_append_left _ (List.mem_append_right _ List.mem_cons_self)
      | inr hrest => exact ih _ hrest

/-- Both ways of finding the values that are new give those that equal nothing before them. -/
theorem absent_eq (container : Slots) (values : List FabricValue) :
    absentByScan container (addValues hashStringOf .empty values).2 = newcomers container values ∧
      absentByLookup hashStringOf (addValues hashStringOf .empty values).1 container
        (addValues hashStringOf .empty values).2 = newcomers container values := by
  obtain ⟨hdistinct, hholds⟩ := addValues_spec values (@ValueSet.holds_empty hashStringOf)
  have hscan : absentByScan container (addValues hashStringOf .empty values).2 =
      newcomers container values := by
    rw [hdistinct, absentByScan_eq]
    exact newcomers_filter [] container values
  refine ⟨hscan, ?_⟩
  rw [← hscan]
  apply absentByLookup_eq
  rw [hdistinct]
  exact hholds

theorem addUnique_eq (container values : Slots) :
    addUnique hashStringOf container values =
      container ++ (newcomers container (values.map (·.getD .undefined))).map some := by
  obtain ⟨hscan, hlookup⟩ := @absent_eq hashStringOf container (values.map (·.getD .undefined))
  simp only [addUnique, hscan, hlookup, ite_self]

theorem addUnique_again (container values : Slots) :
    addUnique hashStringOf (addUnique hashStringOf container values) values =
      addUnique hashStringOf container values := by
  rw [addUnique_eq, addUnique_eq, newcomers_eq_nil fun value hvalue => mem_newcomers container hvalue,
    List.map_nil, List.append_nil]

theorem newcomers_eq_distinct (before : Slots) (values : List FabricValue) :
    newcomers before values = (distinct values).filter fun value => !before.any (· == some value) := by
  have hany : ∀ (slots : Slots) (v : FabricValue),
      slots.any (· == some v) = decide (some v ∈ slots) := by
    intro slots v
    rw [Bool.eq_iff_iff, List.any_beq', List.contains_iff_mem, decide_eq_true_eq]
  simp only [hany]
  induction values generalizing before with
  | nil => rfl
  | cons value rest ih =>
    rw [newcomers, distinct, List.filter_cons, List.filter_filter]
    by_cases hmem : some value ∈ before
    · rw [if_pos hmem, if_neg (by simpa using hmem), ih]
      apply List.filter_congr
      intro v _
      by_cases heq : value = v
      · simp [← heq, hmem]
      · simp [valueEqual, heq]
    · rw [if_neg hmem, if_pos (by simpa using hmem), ih]
      congr 1
      apply List.filter_congr
      intro v _
      simp [valueEqual, eq_comm]

/-- The patch operation does this to the list at its path. -/
theorem addUniqueAtPath_eq (hashStringOf : FabricValue → JsString) (root : FabricValue)
    (path : ValuePath) (values : List FabricValue) :
    addUniqueAtPath root path values = tailAtPath root path "add-unique" fun slots =>
      addUnique hashStringOf slots (values.map some) := by
  have hvalues : (values.map some).map (·.getD FabricValue.undefined) = values := by simp
  simp only [addUniqueAtPath, addUnique_eq, hvalues, newcomers_eq_distinct]

/-- `add-unique` gives the list followed by the values that equal nothing before them, whichever
way it finds them, and a second time nothing. -/
theorem addUnique_exact (hashStringOf : FabricValue → JsString) (container values : Slots) :
    addUnique hashStringOf container values =
        container ++ (newcomers container (values.map (·.getD .undefined))).map some ∧
      absentByLookup hashStringOf
          (addValues hashStringOf .empty (values.map (·.getD .undefined))).1 container
          (addValues hashStringOf .empty (values.map (·.getD .undefined))).2 =
        absentByScan container
          (addValues hashStringOf .empty (values.map (·.getD .undefined))).2 ∧
      addUnique hashStringOf (addUnique hashStringOf container values) values =
        addUnique hashStringOf container values := by
  obtain ⟨hscan, hlookup⟩ := @absent_eq hashStringOf container (values.map (·.getD .undefined))
  exact ⟨addUnique_eq container values, hlookup.trans hscan.symm, addUnique_again container values⟩

/-- `existing.some((element) => valueEqual(element, value))`, which passes over holes. -/
def someEqual (slots : Slots) (value : FabricValue) : Bool :=
  slots.any fun slot => slot.elim false fun element => valueEqual element value

/-- The compaction pass over the `todo` slots from `index` on: a slot that is kept, a hole among
them, moves down to `kept`. An index that holds nothing reads as `undefined`. -/
def compact (value : FabricValue) : Nat → Slots → (index kept : Nat) → Slots
  | 0, array, _, kept => array.take kept
  | todo + 1, array, index, kept =>
    let slot := (array[index]?).join
    if valueEqual (slot.getD .undefined) value then compact value todo array (index + 1) kept
    else compact value todo (array.set kept slot) (index + 1) (kept + 1)

/-- What `remove-by-value` makes of a list. -/
def removeByValue (slots : Slots) (value : FabricValue) : Slots :=
  if someEqual slots value then compact value slots.length slots 0 0 else slots

/-- A slot the compaction pass drops. -/
def dropped (value : FabricValue) (slot : Option FabricValue) : Bool :=
  valueEqual (slot.getD .undefined) value

theorem compact_eq (value : FabricValue) (todo : Nat) (array : Slots) (index kept : Nat)
    (hkept : kept ≤ index) (hlength : array.length = index + todo) :
    compact value todo array index kept =
      array.take kept ++ (array.drop index).filter fun slot => !dropped value slot := by
  induction todo generalizing array index kept with
  | zero =>
    rw [compact, List.drop_of_length_le (by omega), List.filter_nil, List.append_nil]
  | succ todo ih =>
    have hindex : index < array.length := by omega
    have hslot : (array[index]?).join = array[index] := by
      rw [List.getElem?_eq_getElem hindex]
      rfl
    rw [compact, hslot, List.drop_eq_getElem_cons hindex, List.filter_cons]
    change (if dropped value array[index] = true then _ else _) = _
    by_cases hdrop : dropped value array[index] = true
    · rw [if_pos hdrop, if_neg (by simp [hdrop])]
      exact ih array (index + 1) kept (by omega) (by omega)
    · have hset : (array.set kept array[index]).length = index + 1 + todo := by
        rw [List.length_set]
        omega
      have htake : (array.set kept array[index]).take (kept + 1) =
          array.take kept ++ [array[index]] := by
        rw [List.take_add_one, List.take_set_of_le (Nat.le_refl _),
          List.getElem?_set_self (by omega)]
        rfl
      rw [if_neg hdrop, if_pos (by simp [hdrop]), ih _ (index + 1) (kept + 1) (by omega) hset, htake,
        List.drop_set_of_lt (by omega), List.append_assoc]
      rfl

theorem someEqual_iff {slots : Slots} :
    someEqual slots value = true ↔ some value ∈ slots := by
  rw [someEqual, List.any_eq_true]
  constructor
  · rintro ⟨slot, hslot, heq⟩
    cases slot with
    | none => cases heq
    | some element =>
      rw [Option.elim_some, valueEqual, decide_eq_true_eq] at heq
      exact heq ▸ hslot
  · intro hmem
    exact ⟨_, hmem, decide_eq_true rfl⟩

theorem removeByValue_eq (slots : Slots) (value : FabricValue) :
    removeByValue slots value =
      if some value ∈ slots then slots.filter fun slot => !dropped value slot else slots := by
  rw [removeByValue]
  by_cases hmem : some value ∈ slots
  · rw [if_pos (someEqual_iff.2 hmem), if_pos hmem,
      compact_eq value _ _ 0 0 (Nat.le_refl _) (by omega)]
    rfl
  · rw [if_neg (fun h => hmem (someEqual_iff.1 h)), if_neg hmem]

/-- The patch operation puts what is left in the list's place. -/
theorem removeByValueAtPath_valueAt {root root' : FabricValue} {path : ValuePath}
    {slots : Slots} (hroot : valueAt root path = some (.array slots))
    (h : removeByValueAtPath root path value = .ok root') :
    valueAt root' path = some (.array (removeByValue slots value)) := by
  rw [removeByValueAtPath, hroot] at h
  rw [removeByValue_eq]
  by_cases hmem : some value ∈ slots
  · rw [if_pos hmem]
    have hany : (slots.any (· == some value)) = true :=
      List.any_eq_true.2 ⟨_, hmem, beq_self_eq_true _⟩
    simp only [hany, if_true] at h
    obtain ⟨c, c', hc, hleaf, hfound⟩ := editSpine_leaf h
    cases hfound with
    | inl hfound =>
      rw [hroot] at hfound
      cases hfound
      cases hc
      exact hleaf
    | inr hcreated =>
      obtain ⟨_, hnone, _⟩ := hcreated
      cases hnone
  · rw [if_neg hmem]
    have hany : (slots.any (· == some value)) = false := by
      rw [List.any_eq_false]
      intro slot hslot heq
      exact hmem (eq_of_beq heq ▸ hslot)
    simp only [hany] at h
    cases h
    exact hroot

/-- The slots that hold the value go and no other, in the list and in the document that holds it,
and where nothing equals the value nothing changes. -/
structure RemovesExactly (slots : Slots) (value : FabricValue) : Prop where
  removed : removeByValue slots value = slots.filter fun slot => slot ≠ some value
  stored : ∀ root root' path, valueAt root path = some (.array slots) →
    removeByValueAtPath root path value = .ok root' →
      valueAt root' path = some (.array (slots.filter fun slot => slot ≠ some value))
  untouched : some value ∉ slots → ∀ root path, valueAt root path = some (.array slots) →
    removeByValueAtPath root path value = .ok root
  agrees : someEqual slots value = true ↔ removeByValue slots value ≠ slots

theorem RemovesExactly.of_removed {slots : Slots}
    (h : removeByValue slots value = slots.filter fun slot => slot ≠ some value) :
    RemovesExactly slots value where
  removed := h
  stored root root' path hroot hpatch := by
    rw [← h]
    exact removeByValueAtPath_valueAt hroot hpatch
  untouched hmem root path hroot := by
    have hany : (slots.any (· == some value)) = false := by
      rw [List.any_eq_false]
      intro slot hslot heq
      exact hmem (eq_of_beq heq ▸ hslot)
    rw [removeByValueAtPath, hroot]
    simp only [hany]
    rfl
  agrees := by
    rw [someEqual_iff, h, ne_eq, List.filter_eq_self]
    constructor
    · intro hmem hall
      exact absurd (hall _ hmem) (by simp)
    · intro hchanged
      by_contra hmem
      apply hchanged
      intro slot hslot
      rw [decide_eq_true_eq]
      rintro rfl
      exact hmem hslot

/-- A removal takes what equals the value and keeps every hole, unless it is `undefined` that is
removed from a list with holes that holds it. -/
theorem removesExactly_iff (slots : Slots) (value : FabricValue) :
    RemovesExactly slots value ↔
      ¬ (value = .undefined ∧ none ∈ slots ∧ some .undefined ∈ slots) := by
  constructor
  · rintro h ⟨rfl, hhole, hmem⟩
    have heq := h.removed
    rw [removeByValue_eq, if_pos hmem] at heq
    have hkept : (none : Option FabricValue) ∈ slots.filter fun slot => slot ≠ some .undefined :=
      List.mem_filter.2 ⟨hhole, by simp⟩
    rw [← heq, List.mem_filter] at hkept
    cases hkept.2
  · intro hnot
    apply RemovesExactly.of_removed
    rw [removeByValue_eq]
    by_cases hmem : some value ∈ slots
    · rw [if_pos hmem]
      apply List.filter_congr
      intro slot hslot
      cases slot with
      | some element => simp [dropped, valueEqual]
      | none =>
        have hne : value ≠ .undefined := by
          rintro rfl
          exact hnot ⟨rfl, hslot, hmem⟩
        simp [dropped, valueEqual, Ne.symm hne]
    · rw [if_neg hmem, eq_comm, List.filter_eq_self]
      intro slot hslot
      rw [decide_eq_true_eq]
      rintro rfl
      exact hmem hslot

theorem not_removesExactly_undefined : ¬ RemovesExactly [none, some .undefined] .undefined := by
  intro h
  cases h.removed

end Patch
