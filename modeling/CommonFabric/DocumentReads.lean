import CommonFabric.LinkSchemas
import CommonFabric.Patch

/-!
# Reads of a document

A transaction reads a document at a path, and takes what is missing for `undefined`; the
`length` of an array is read like a member. A shallow read sees the shape of the value there:
its kind, its keys, and how long it is.
-/

open Pointer

mutual
/-- Records list their members in key order, and no array is longer than an array can be. -/
def wellFormed : FabricValue → Bool
  | .array slots => decide (slots.length < 2 ^ 32) && wellFormedSlots slots
  | .record fields => decide (Fields.Ordered fields) && wellFormedFields fields
  | _ => true

def wellFormedSlots : List (Option FabricValue) → Bool
  | [] => true
  | none :: slots => wellFormedSlots slots
  | some value :: slots => wellFormed value && wellFormedSlots slots

def wellFormedFields : List (JsString × FabricValue) → Bool
  | [] => true
  | (_, value) :: fields => wellFormed value && wellFormedFields fields
end

variable {slots others : List (Option FabricValue)} {v : FabricValue}
  {fields : List (JsString × FabricValue)} {k : JsString} {p : ValuePath}

theorem wellFormed_of_mem_slots
    (h : wellFormedSlots slots = true) (hmem : some v ∈ slots) : wellFormed v = true := by
  induction slots with
  | nil => cases hmem
  | cons slot slots ih =>
    cases slot with
    | none =>
      cases List.mem_cons.1 hmem with
      | inl heq => cases heq
      | inr hmem => exact ih h hmem
    | some w =>
      rw [wellFormedSlots, Bool.and_eq_true] at h
      cases List.mem_cons.1 hmem with
      | inl heq => cases heq; exact h.1
      | inr hmem => exact ih h.2 hmem

theorem wellFormed_of_mem_fields
    {field : JsString × FabricValue} (h : wellFormedFields fields = true) (hmem : field ∈ fields) :
    wellFormed field.2 = true := by
  induction fields with
  | nil => cases hmem
  | cons f fields ih =>
    rw [wellFormedFields, Bool.and_eq_true] at h
    cases List.mem_cons.1 hmem with
    | inl heq => cases heq; exact h.1
    | inr hmem => exact ih h.2 hmem

theorem slot_mem {i : Nat} (h : slots[i]?.join = some v) : some v ∈ slots := by
  rw [Option.join_eq_some_iff] at h
  exact List.mem_of_getElem? h

theorem wellFormed_child {c : FabricValue} (h : wellFormed v = true)
    (hchild : child v k = some c) : wellFormed c = true := by
  cases v with
  | array slots =>
    rw [wellFormed, Bool.and_eq_true] at h
    unfold child at hchild
    dsimp only at hchild
    split at hchild
    · exact wellFormed_of_mem_slots h.2 (slot_mem hchild)
    · cases hchild
  | record fields =>
    rw [wellFormed, Bool.and_eq_true] at h
    exact wellFormed_of_mem_fields h.2 (Fields.mem_of_get? hchild)
  | _ => cases hchild

theorem wellFormed_valueAt : ∀ {v c : FabricValue}, wellFormed v = true →
    valueAt v p = some c → wellFormed c = true := by
  induction p with
  | nil =>
    intro v c h hv
    cases hv
    exact h
  | cons k p ih =>
    intro v c h hv
    rw [valueAt_cons] at hv
    obtain ⟨x, hx, hv⟩ := Option.bind_eq_some_iff.1 hv
    exact ih (wellFormed_child h hx) hv

/-- The digit with the given value. -/
def digitUnit (d : Nat) : UInt16 := UInt16.ofNat (48 + d)

theorem toNat_digitUnit {d : Nat} (h : d < 10) : (digitUnit d).toNat = 48 + d := by
  rw [digitUnit, UInt16.toNat_ofNat_of_lt']
  change 48 + d < 65536
  omega

theorem isDigit_digitUnit {d : Nat} (h : d < 10) : isDigit (digitUnit d) = true := by
  rw [isDigit, toNat_digitUnit h]
  simp
  omega

/-- Each index has a numeral. -/
theorem exists_arrayIndex (i : Nat) : ∃ k, arrayIndex? k = some i := by
  by_cases hzero : i = 0
  · subst hzero
    exact ⟨"0", by decide⟩
  · have hdigits : ∀ d ∈ Nat.digits 10 i, d < 10 := fun d hd => Nat.digits_lt_base (by omega) hd
    have hne : Nat.digits 10 i ≠ [] := Nat.digits_ne_nil_iff_ne_zero.2 hzero
    have hback : ((((Nat.digits 10 i).map digitUnit).reverse.map fun u => u.toNat - 48).reverse) =
        Nat.digits 10 i := by
      rw [List.map_reverse, List.reverse_reverse, List.map_map]
      refine (List.map_congr_left fun d hd => ?_).trans (List.map_id _)
      have := toNat_digitUnit (hdigits d hd)
      simp only [Function.comp_apply, id_eq]
      omega
    refine ⟨⟨((Nat.digits 10 i).map digitUnit).reverse⟩, ?_⟩
    have hsegment : isArraySegment ⟨((Nat.digits 10 i).map digitUnit).reverse⟩ = true := by
      have hall : ∀ u ∈ ((Nat.digits 10 i).map digitUnit).reverse, isDigit u = true := by
        intro u hu
        obtain ⟨d, hd, rfl⟩ := List.mem_map.1 (List.mem_reverse.1 hu)
        exact isDigit_digitUnit (hdigits d hd)
      have hhead : ∀ u rest, ((Nat.digits 10 i).map digitUnit).reverse = u :: rest → u ≠ 48 := by
        intro u rest heq
        have hlast := Nat.getLast_digit_ne_zero 10 hzero
        have hhead : u = digitUnit ((Nat.digits 10 i).getLast hne) := by
          have h := congrArg List.head? heq
          rw [List.head?_reverse, List.getLast?_map, List.getLast?_eq_some_getLast hne] at h
          exact (Option.some.inj h).symm
        rw [hhead]
        intro h48
        have := toNat_digitUnit (hdigits _ (List.getLast_mem hne))
        rw [h48] at this
        apply hlast
        change 48 = _ at this
        omega
      unfold isArraySegment
      dsimp only
      split
      · rename_i hnil
        simp at hnil
        exact absurd hnil hne
      · rename_i u heq
        exact hall u (by rw [heq]; exact List.mem_cons_self)
      · rename_i u rest _ heq
        have hdigit := hall u (by rw [heq]; exact List.mem_cons_self)
        have hrest : rest.all isDigit = true := List.all_eq_true.2 fun v hv =>
          hall v (by rw [heq]; exact List.mem_cons_of_mem _ hv)
        have hu := hhead u rest heq
        simp [hdigit, hrest, hu]
    rw [arrayIndex?, if_pos hsegment, hback, Nat.ofDigits_digits]

/-- One step of a read, where the length of an array may be read. -/
def readChild : FabricValue → JsString → FabricValue
  | .array slots, segment =>
    if segment = "length" then .number (.ofNat slots.length)
    else if isArrayIndexPropertyName segment then
      ((arrayIndex? segment).bind fun i => slots[i]?.join).getD .undefined
    else .undefined
  | .record fields, segment => (Fields.get? fields segment).getD .undefined
  | _, _ => .undefined

/-- What is missing reads as `undefined`, and so does all below it. -/
def readValueAtPath (root : FabricValue) (path : ValuePath) : FabricValue :=
  path.foldl readChild root

@[simp] theorem readValueAtPath_cons (v : FabricValue) (k : JsString) (p : ValuePath) :
    readValueAtPath v (k :: p) = readValueAtPath (readChild v k) p := rfl

theorem readValueAtPath_append (v : FabricValue) (p q : ValuePath) :
    readValueAtPath v (p ++ q) = readValueAtPath (readValueAtPath v p) q := List.foldl_append

@[simp] theorem readValueAtPath_undefined (p : ValuePath) :
    readValueAtPath .undefined p = .undefined := by
  induction p with
  | nil => rfl
  | cons k p ih => exact ih

@[simp] theorem readValueAtPath_number (n : JsNumber) (k : JsString) (p : ValuePath) :
    readValueAtPath (.number n) (k :: p) = .undefined := readValueAtPath_undefined p

theorem arrayIndex?_length : arrayIndex? "length" = none := by decide

theorem readChild_array_length (slots : List (Option FabricValue)) :
    readChild (.array slots) "length" = .number (.ofNat slots.length) := rfl

/-- A segment reads the slot it names, or an array's length, or nothing. -/
theorem readChild_eq (h : wellFormed v = true) (k : JsString) :
    readChild v k = (child v k).getD .undefined ∨
      k = "length" ∧ ∃ slots, v = .array slots := by
  cases v with
  | array slots =>
    by_cases hk : k = "length"
    · exact .inr ⟨hk, slots, rfl⟩
    · left
      rw [readChild, if_neg hk, child, isArrayIndexPropertyName]
      cases hi : arrayIndex? k with
      | none => rfl
      | some i =>
        rw [wellFormed, Bool.and_eq_true, decide_eq_true_eq] at h
        simp only [Option.bind_some, decide_eq_true_eq]
        split
        · rfl
        · rename_i hmax
          have hout : slots.length ≤ i := by
            rw [maxArrayIndex] at hmax
            omega
          rw [List.getElem?_eq_none hout]
          rfl
  | record fields => exact .inl rfl
  | _ => exact .inl rfl

theorem readChild_of_child {c : FabricValue} (h : wellFormed v = true)
    (hc : child v k = some c) : readChild v k = c := by
  cases readChild_eq h k with
  | inl heq => rw [heq, hc]; rfl
  | inr hlength =>
    obtain ⟨rfl, slots, rfl⟩ := hlength
    rw [child, arrayIndex?_length] at hc
    cases hc

theorem wellFormed_readChild (h : wellFormed v = true) (k : JsString) :
    wellFormed (readChild v k) = true := by
  cases readChild_eq h k with
  | inl heq =>
    rw [heq]
    cases hc : child v k with
    | none => rfl
    | some c => exact wellFormed_child h hc
  | inr hlength =>
    obtain ⟨rfl, slots, rfl⟩ := hlength
    rfl

theorem wellFormed_readValueAtPath : ∀ {v : FabricValue}, wellFormed v = true →
    wellFormed (readValueAtPath v p) = true := by
  induction p with
  | nil => intro v h; exact h
  | cons k p ih => intro v h; exact ih (wellFormed_readChild h k)

/-- A read of a place that is there returns what is there. -/
theorem read_of_valueAt : ∀ {v c : FabricValue}, wellFormed v = true →
    valueAt v p = some c → readValueAtPath v p = c := by
  induction p with
  | nil =>
    intro v c h hv
    cases hv
    rfl
  | cons k p ih =>
    intro v c h hv
    rw [valueAt_cons] at hv
    obtain ⟨x, hx, hv⟩ := Option.bind_eq_some_iff.1 hv
    rw [readValueAtPath_cons, readChild_of_child h hx]
    exact ih (wellFormed_child h hx) hv

/-- A read of a place that is not there returns `undefined`, or the length of an array. -/
theorem read_of_missing : ∀ {v : FabricValue}, wellFormed v = true →
    valueAt v p = none → readValueAtPath v p = .undefined ∨
      ∃ stem slots, p = stem ++ [("length" : JsString)] ∧ valueAt v stem = some (.array slots) ∧
        readValueAtPath v p = .number (.ofNat slots.length) := by
  induction p with
  | nil =>
    intro v h hv
    cases hv
  | cons k p ih =>
    intro v h hv
    rw [valueAt_cons] at hv
    rw [readValueAtPath_cons]
    cases readChild_eq h k with
    | inl heq =>
      rw [heq]
      cases hc : child v k with
      | none => exact .inl (readValueAtPath_undefined p)
      | some c =>
        rw [hc] at hv
        cases ih (wellFormed_child h hc) hv with
        | inl hundefined => exact .inl hundefined
        | inr hlength =>
          obtain ⟨stem, slots, rfl, hstem, hread⟩ := hlength
          refine .inr ⟨k :: stem, slots, rfl, ?_, hread⟩
          rw [valueAt_cons, hc]
          exact hstem
    | inr hlength =>
      obtain ⟨rfl, slots, rfl⟩ := hlength
      rw [readChild_array_length]
      cases p with
      | nil => exact .inr ⟨[], slots, rfl, rfl, rfl⟩
      | cons k' p => exact .inl (readValueAtPath_number _ _ _)

/-- What a shallow read sees: all of a leaf, the keys of a record, and of an array how long it
is and which of its slots hold something. -/
inductive ReadShape where
  | leaf (value : FabricValue)
  | record (keys : List JsString)
  | array (present : List Bool)
  deriving DecidableEq

def shapeOf : FabricValue → ReadShape
  | .record fields => .record (fields.map (·.1))
  | .array slots => .array (slots.map (·.isSome))
  | value => .leaf value

/-- The indices of the slots that hold something, an array's `Object.keys`. -/
def presentIndices (slots : List (Option FabricValue)) : List Nat :=
  (List.range slots.length).filter fun i => (slots[i]?.join).isSome

def shallowStructureChanged (before after : FabricValue) : Bool :=
  match before, after with
  | .record fields, .record others =>
    decide (fields.length ≠ others.length) ||
      !fields.all fun field => (Fields.get? others field.1).isSome
  | .array slots, .array others =>
    decide ((presentIndices slots).length ≠ (presentIndices others).length) ||
      decide (slots.length ≠ others.length) ||
      !(presentIndices slots).all fun i => (others[i]?.join).isSome
  | .record _, .array _ => true
  | .array _, .record _ => true
  | before, after => !valueEqual before after

theorem presentIndices_pairwise (slots : List (Option FabricValue)) :
    (presentIndices slots).Pairwise (· < ·) := List.pairwise_lt_range.filter _

theorem mem_presentIndices {i : Nat} :
    i ∈ presentIndices slots ↔ (slots[i]?.join).isSome = true := by
  rw [presentIndices, List.mem_filter, List.mem_range]
  constructor
  · intro h
    exact h.2
  · intro h
    refine ⟨?_, h⟩
    obtain ⟨v, hv⟩ := Option.isSome_iff_exists.1 h
    rw [Option.join_eq_some_iff] at hv
    exact (List.getElem?_eq_some_iff.1 hv).1

/-- As many keys, each of them in the other list, are the same keys in one order. -/
theorem keys_eq_of_subset {α : Type} {lt : α → α → Prop} [Std.Irrefl lt] [Std.Antisymm lt]
    {keys others : List α} (hkeys : keys.Pairwise lt) (hothers : others.Pairwise lt)
    (hlength : keys.length = others.length) (hsub : ∀ k ∈ keys, k ∈ others) : keys = others := by
  have hnodup : keys.Nodup := hkeys.imp fun {a b} h (heq : a = b) =>
    Std.Irrefl.irrefl b (heq ▸ h)
  have hsubperm : keys.Subperm others := hnodup.subperm hsub
  exact (List.sublist_of_subperm_of_pairwise hsubperm hkeys hothers).eq_of_length hlength

theorem map_isSome_eq
    (hlength : slots.length = others.length) (h : presentIndices slots = presentIndices others) :
    slots.map (·.isSome) = others.map (·.isSome) := by
  apply List.ext_getElem
  · simpa using hlength
  · intro i hi hi'
    have hboth : ((slots[i]?.join).isSome = true ↔ (others[i]?.join).isSome = true) := by
      rw [← mem_presentIndices, ← mem_presentIndices, h]
    simp only [List.length_map] at hi hi'
    rw [List.getElem?_eq_getElem hi, List.getElem?_eq_getElem hi'] at hboth
    rw [List.getElem_map, List.getElem_map, Bool.eq_iff_iff]
    exact hboth

theorem presentIndices_congr (h : slots.map (·.isSome) = others.map (·.isSome)) :
    slots.length = others.length ∧ presentIndices slots = presentIndices others := by
  have hlength : slots.length = others.length := by simpa using congrArg List.length h
  refine ⟨hlength, ?_⟩
  rw [presentIndices, presentIndices, hlength]
  refine List.filter_congr fun i _ => ?_
  have hi := congrArg (fun l => l[i]?) h
  simp only [List.getElem?_map] at hi
  cases hs : slots[i]? with
  | none =>
    rw [hs] at hi
    cases ho : others[i]? with
    | none => rfl
    | some o => rw [ho] at hi; cases hi
  | some s =>
    rw [hs] at hi
    cases ho : others[i]? with
    | none => rw [ho] at hi; cases hi
    | some o =>
      rw [ho] at hi
      exact Option.some.inj hi

theorem shallowStructureChanged_record {others : List (JsString × FabricValue)}
    (hb : Fields.Ordered fields) (ha : Fields.Ordered others) :
    shallowStructureChanged (.record fields) (.record others) = true ↔
      fields.map (·.1) ≠ others.map (·.1) := by
  have hall : (fields.all fun field => (Fields.get? others field.1).isSome) = true ↔
      ∀ k ∈ fields.map (·.1), k ∈ others.map (·.1) := by
    simp only [List.all_eq_true, List.forall_mem_map]
    refine forall_congr' fun field => imp_congr_right fun _ => ?_
    rw [← not_iff_not, Bool.not_eq_true, Option.isSome_eq_false_iff, Option.isNone_iff_eq_none,
      Fields.get?_eq_none_iff]
  rw [← not_iff_not, not_not, Bool.not_eq_true, shallowStructureChanged, Bool.or_eq_false_iff,
    decide_eq_false_iff_not, not_not, Bool.not_eq_false', hall]
  constructor
  · intro h
    exact keys_eq_of_subset hb.keys ha.keys (by simpa using h.1) h.2
  · intro h
    exact ⟨by simpa using congrArg List.length h, fun k hk => h ▸ hk⟩

theorem shallowStructureChanged_array :
    shallowStructureChanged (.array slots) (.array others) = true ↔
      slots.map (·.isSome) ≠ others.map (·.isSome) := by
  have hall : ((presentIndices slots).all fun i => (others[i]?.join).isSome) = true ↔
      ∀ i ∈ presentIndices slots, i ∈ presentIndices others := by
    simp only [List.all_eq_true, mem_presentIndices]
  rw [← not_iff_not, not_not, Bool.not_eq_true, shallowStructureChanged, Bool.or_eq_false_iff,
    Bool.or_eq_false_iff, decide_eq_false_iff_not, decide_eq_false_iff_not, not_not, not_not,
    Bool.not_eq_false', hall]
  constructor
  · intro h
    exact map_isSome_eq h.1.2 (keys_eq_of_subset (presentIndices_pairwise slots)
      (presentIndices_pairwise others) h.1.1 h.2)
  · intro h
    obtain ⟨hlength, hkeys⟩ := presentIndices_congr h
    exact ⟨⟨by rw [hkeys], hlength⟩, fun i hi => hkeys ▸ hi⟩

/-- The shallow structure has changed exactly where a shallow read sees another shape. -/
theorem shallowStructureChanged_iff {before after : FabricValue} (hb : wellFormed before = true)
    (ha : wellFormed after = true) :
    shallowStructureChanged before after = true ↔ shapeOf before ≠ shapeOf after := by
  cases before with
  | record fields =>
    cases after with
    | record others =>
      rw [wellFormed, Bool.and_eq_true, decide_eq_true_eq] at hb ha
      rw [shallowStructureChanged_record hb.1 ha.1, shapeOf, shapeOf, Ne, Ne, ReadShape.record.injEq]
    | _ => simp [shallowStructureChanged, shapeOf, valueEqual]
  | array slots =>
    cases after with
    | array others =>
      rw [shallowStructureChanged_array, shapeOf, shapeOf, Ne, Ne, ReadShape.array.injEq]
    | _ => simp [shallowStructureChanged, shapeOf, valueEqual]
  | _ => cases after <;> simp [shallowStructureChanged, shapeOf, valueEqual, imp_iff_not_or]

/-- Nothing is below: a leaf, or a container that holds nothing. -/
def Childless (v : FabricValue) : Prop := ∀ k, child v k = none

theorem sizeOf_child_lt {c : FabricValue} (h : child v k = some c) :
    sizeOf c < sizeOf v := by
  cases v with
  | array slots =>
    unfold child at h
    dsimp only at h
    split at h
    · have := sizeOf_slot_lt (slot_mem h)
      simp only [FabricValue.array.sizeOf_spec]
      omega
    · cases h
  | record fields =>
    have := sizeOf_member_lt (Fields.mem_of_get? h)
    dsimp only at this
    simp only [FabricValue.record.sizeOf_spec]
    omega
  | _ => cases h

/-- Somewhere at or below each value there is one with nothing below it. -/
theorem exists_childless (v : FabricValue) : ∃ p c, valueAt v p = some c ∧ Childless c := by
  induction hsize : sizeOf v using Nat.strongRecOn generalizing v with
  | ind n ih =>
    subst hsize
    by_cases hv : Childless v
    · exact ⟨[], v, rfl, hv⟩
    · obtain ⟨k, hk⟩ := not_forall.1 hv
      obtain ⟨x, hx⟩ := Option.ne_none_iff_exists'.1 hk
      obtain ⟨p, c, hp, hc⟩ := ih _ (sizeOf_child_lt hx) x rfl
      refine ⟨k :: p, c, ?_, hc⟩
      rw [valueAt_cons, hx]
      exact hp

theorem child_index {i : Nat}
    (h : arrayIndex? k = some i) : child (.array slots) k = slots[i]?.join := by
  rw [child, h]

/-- Of two different values of one shape, some child differs. -/
theorem exists_child_ne {w : FabricValue} (hv : wellFormed v = true) (hw : wellFormed w = true)
    (hshape : shapeOf v = shapeOf w) (hne : v ≠ w) :
    ∃ k c d, child v k = some c ∧ child w k = some d ∧ c ≠ d := by
  by_contra hall
  simp only [not_exists, not_and, not_not] at hall
  apply hne
  cases v with
  | record fields =>
    cases w with
    | record others =>
      rw [wellFormed, Bool.and_eq_true, decide_eq_true_eq] at hv hw
      have hkeys : fields.map (·.1) = others.map (·.1) := ReadShape.record.inj hshape
      rw [Fields.Ordered.ext hv.1 hw.1 fun k => ?_]
      have hnone : Fields.get? fields k = none ↔ Fields.get? others k = none := by
        rw [Fields.get?_eq_none_iff, Fields.get?_eq_none_iff, hkeys]
      cases hc : Fields.get? fields k with
      | none => exact (hnone.1 hc).symm
      | some c =>
        cases hd : Fields.get? others k with
        | none => rw [hnone.2 hd] at hc; cases hc
        | some d => rw [hall k c d hc hd]
    | _ => cases hshape
  | array slots =>
    cases w with
    | array others =>
      have hpresent : slots.map (·.isSome) = others.map (·.isSome) := ReadShape.array.inj hshape
      congr 1
      apply List.ext_getElem
      · simpa using congrArg List.length hpresent
      · intro i hi hi'
        have hi'' := congrArg (fun l => l[i]?) hpresent
        simp only [List.getElem?_map, List.getElem?_eq_getElem hi, List.getElem?_eq_getElem hi',
          Option.map_some, Option.some.injEq] at hi''
        obtain ⟨k, hk⟩ := exists_arrayIndex i
        have hc := @child_index slots k i hk
        have hd := @child_index others k i hk
        rw [List.getElem?_eq_getElem hi] at hc
        rw [List.getElem?_eq_getElem hi'] at hd
        cases hs : slots[i] with
        | none =>
          cases ho : others[i] with
          | none => rfl
          | some d => rw [hs, ho] at hi''; cases hi''
        | some c =>
          cases ho : others[i] with
          | none => rw [hs, ho] at hi''; cases hi''
          | some d =>
            rw [hs] at hc
            rw [ho] at hd
            rw [hall k c d hc hd]
    | _ => cases hshape
  | _ => cases w <;> simp_all [shapeOf]

/-- Two values that differ differ in shape at some path. -/
theorem exists_shape_ne {w : FabricValue} (hv : wellFormed v = true) (hw : wellFormed w = true)
    (hne : v ≠ w) : ∃ p, shapeOf (readValueAtPath v p) ≠ shapeOf (readValueAtPath w p) := by
  induction hsize : sizeOf v using Nat.strongRecOn generalizing v w with
  | ind n ih =>
    subst hsize
    by_cases hshape : shapeOf v = shapeOf w
    · obtain ⟨k, c, d, hc, hd, hcd⟩ := exists_child_ne hv hw hshape hne
      obtain ⟨p, hp⟩ := ih _ (sizeOf_child_lt hc) (wellFormed_child hv hc) (wellFormed_child hw hd)
        hcd rfl
      refine ⟨k :: p, ?_⟩
      rw [readValueAtPath_cons, readValueAtPath_cons, readChild_of_child hv hc,
        readChild_of_child hw hd]
      exact hp
    · exact ⟨[], hshape⟩

/-- Two records, or two arrays. -/
inductive SameKind : FabricValue → FabricValue → Prop
  | records (fields others : List (JsString × FabricValue)) :
      SameKind (.record fields) (.record others)
  | arrays (slots others : List (Option FabricValue)) : SameKind (.array slots) (.array others)

theorem SameKind.symm {w : FabricValue} (h : SameKind v w) : SameKind w v := by
  cases h with
  | records fields others => exact .records others fields
  | arrays slots others => exact .arrays others slots

/-- Records with different keys have some child in one alone. -/
theorem exists_key_of_shape {others : List (JsString × FabricValue)}
    (hb : Fields.Ordered fields) (ha : Fields.Ordered others)
    (hne : shapeOf (.record fields) ≠ shapeOf (.record others)) :
    ∃ k, (child (.record fields) k).isSome ≠ (child (.record others) k).isSome := by
  by_contra hall
  simp only [not_exists, not_not] at hall
  apply hne
  rw [shapeOf, shapeOf, ReadShape.record.injEq]
  refine hb.keys.eq_of_mem_iff ha.keys fun k => ?_
  have hk : (Fields.get? fields k).isSome = (Fields.get? others k).isSome := hall k
  rw [← not_iff_not, ← Fields.get?_eq_none_iff, ← Fields.get?_eq_none_iff,
    ← Option.not_isSome_iff_eq_none, ← Option.not_isSome_iff_eq_none, hk]

/-- Arrays as long with different slots filled have some child in one alone. -/
theorem exists_index_of_shape (hlength : slots.length = others.length)
    (hne : shapeOf (.array slots) ≠ shapeOf (.array others)) :
    ∃ k, (child (.array slots) k).isSome ≠ (child (.array others) k).isSome := by
  by_contra hall
  simp only [not_exists, not_not] at hall
  apply hne
  rw [shapeOf, shapeOf, ReadShape.array.injEq]
  apply List.ext_getElem
  · simpa using hlength
  · intro i hi hi'
    simp only [List.length_map] at hi hi'
    obtain ⟨k, hk⟩ := exists_arrayIndex i
    have h := hall k
    rw [child_index hk, child_index hk, List.getElem?_eq_getElem hi,
      List.getElem?_eq_getElem hi'] at h
    simpa using h

/-- Values of one shape have their children under the same segments. -/
theorem child_isSome_of_shape {w : FabricValue} (h : shapeOf v = shapeOf w) (k : JsString) :
    (child v k).isSome = (child w k).isSome := by
  cases v with
  | record fields =>
    cases w with
    | record others =>
      have hkeys : fields.map (·.1) = others.map (·.1) := ReadShape.record.inj h
      rw [Bool.eq_iff_iff, ← not_iff_not, Option.not_isSome_iff_eq_none,
        Option.not_isSome_iff_eq_none]
      change Fields.get? fields k = none ↔ Fields.get? others k = none
      rw [Fields.get?_eq_none_iff, Fields.get?_eq_none_iff, hkeys]
    | _ => cases h
  | array slots =>
    cases w with
    | array others =>
      have hpresent : slots.map (·.isSome) = others.map (·.isSome) := ReadShape.array.inj h
      unfold child
      dsimp only
      split
      · rename_i i _
        have hi := congrArg (fun l => l[i]?) hpresent
        simp only [List.getElem?_map] at hi
        cases hs : slots[i]? with
        | none =>
          cases ho : others[i]? with
          | none => rfl
          | some o => rw [hs, ho] at hi; cases hi
        | some s =>
          cases ho : others[i]? with
          | none => rw [hs, ho] at hi; cases hi
          | some o =>
            rw [hs, ho] at hi
            exact Option.some.inj hi
      · rfl
    | _ => cases h
  | _ => cases w <;> simp_all [shapeOf, child]
