import CommonFabric.ObservationCeiling
import Mathlib.Data.List.Forall2

/-!
# Equality across commitments

Two values are compared part by part, and a commitment is taken for what it commits to. Between
values that do not hold a commitment where another holds one further in, this is an equivalence.
-/

namespace Cfc

mutual
/-- Its arrays have no holes, and no key stands twice in a record. -/
def isDense : FabricValue → Bool
  | .array slots => slotsAreDense slots
  | .record fields => decide (fields.map (·.1)).Nodup && fieldsAreDense fields
  | _ => true

def slotsAreDense : List (Option FabricValue) → Bool
  | [] => true
  | none :: _ => false
  | some value :: slots => isDense value && slotsAreDense slots

def fieldsAreDense : Members → Bool
  | [] => true
  | (_, value) :: fields => isDense value && fieldsAreDense fields
end

/-- Neither an array nor a record. -/
def isLeaf : FabricValue → Bool
  | .array _ | .record _ => false
  | _ => true

variable {slots : List (Option FabricValue)} {fields : Members} {value v : FabricValue}

theorem slotsAreDense_iff :
    slotsAreDense slots = true ↔ ∀ slot ∈ slots, ∃ value, slot = some value ∧ isDense value := by
  induction slots with
  | nil => simp [slotsAreDense]
  | cons slot slots ih =>
    cases slot with
    | none => simp [slotsAreDense]
    | some value => simp [slotsAreDense, ih]

theorem fieldsAreDense_iff :
    fieldsAreDense fields = true ↔ ∀ field ∈ fields, isDense field.2 = true := by
  induction fields with
  | nil => simp [fieldsAreDense]
  | cons field fields ih => simp [fieldsAreDense, ih]

theorem isDense_record :
    isDense (.record fields) = true ↔
      (fields.map (·.1)).Nodup ∧ ∀ field ∈ fields, isDense field.2 = true := by
  rw [isDense, Bool.and_eq_true, decide_eq_true_iff, fieldsAreDense_iff]

theorem isDense_member (h : isDense (.record fields) = true) {key : JsString}
    (hget : Fields.get? fields key = some value) : isDense value = true :=
  (isDense_record.1 h).2 (key, value) (Fields.mem_of_get? hget)

theorem isDense_slot (h : isDense (.array slots) = true) (hmem : some value ∈ slots) :
    isDense value = true := by
  rw [isDense] at h
  obtain ⟨value', heq, hdense⟩ := slotsAreDense_iff.1 h _ hmem
  rw [Option.some.inj heq]
  exact hdense

theorem sizeOf_slot (h : some value ∈ slots) : sizeOf value < sizeOf (FabricValue.array slots) := by
  have := List.sizeOf_lt_of_mem h
  simp only [Option.some.sizeOf_spec] at this
  simp only [FabricValue.array.sizeOf_spec]
  omega

theorem sizeOf_member {key : JsString}
    (h : (key, value) ∈ fields) : sizeOf value < sizeOf (FabricValue.record fields) := by
  have := List.sizeOf_lt_of_mem h
  simp only [Prod.mk.sizeOf_spec] at this
  simp only [FabricValue.record.sizeOf_spec]
  omega

theorem sameValue_iff {a b : FabricValue} : sameValue a b = true ↔ keySorted a = keySorted b :=
  decide_eq_true_iff

theorem sameValue_refl (a : FabricValue) : sameValue a a = true := sameValue_iff.2 rfl

theorem sameValue_symm {a b : FabricValue} (h : sameValue a b = true) : sameValue b a = true :=
  sameValue_iff.2 (sameValue_iff.1 h).symm

theorem sameValue_trans {a b c : FabricValue} (hab : sameValue a b = true)
    (hbc : sameValue b c = true) : sameValue a c = true :=
  sameValue_iff.2 ((sameValue_iff.1 hab).trans (sameValue_iff.1 hbc))

theorem keySortedFields_ordered (fields : Members) : Fields.Ordered (keySortedFields fields) := by
  induction fields with
  | nil => exact List.Pairwise.nil
  | cons field fields ih =>
    obtain ⟨key, value⟩ := field
    rw [keySortedFields]
    exact ih.set key (keySorted value)

theorem keySortedSlots_eq_map (slots : List (Option FabricValue)) :
    keySortedSlots slots = slots.map (Option.map keySorted) := by
  induction slots with
  | nil => rfl
  | cons slot slots ih => cases slot <;> simp [keySortedSlots, ih]

/-- Records are the same when each key holds the same in both. -/
theorem sameValue_record {f g : Members} :
    sameValue (.record f) (.record g) = true ↔
      ∀ key, Option.Rel (fun a b => sameValue a b = true) (Fields.get? f key)
        (Fields.get? g key) := by
  rw [sameValue_iff, keySorted, keySorted, FabricValue.record.injEq]
  have hget : keySortedFields f = keySortedFields g ↔
      ∀ key, (Fields.get? f key).map keySorted = (Fields.get? g key).map keySorted := by
    constructor
    · intro h key
      rw [← get?_keySortedFields, h, get?_keySortedFields]
    · intro h
      apply (keySortedFields_ordered f).ext (keySortedFields_ordered g)
      intro key
      rw [get?_keySortedFields, get?_keySortedFields, h key]
  rw [hget]
  refine forall_congr' fun key => ?_
  cases Fields.get? f key <;> cases Fields.get? g key <;> simp [sameValue_iff]

theorem sameValue_array {s t : List (Option FabricValue)} :
    sameValue (.array s) (.array t) = true ↔
      s.map (Option.map keySorted) = t.map (Option.map keySorted) := by
  rw [sameValue_iff, keySorted, keySorted, FabricValue.array.injEq, keySortedSlots_eq_map,
    keySortedSlots_eq_map]

theorem isLeaf_keySorted (v : FabricValue) : isLeaf (keySorted v) = isLeaf v := by
  cases v <;> simp [keySorted, isLeaf]

theorem isLeaf_of_same {a b : FabricValue} (h : sameValue a b = true) : isLeaf a = isLeaf b := by
  rw [← isLeaf_keySorted, sameValue_iff.1 h, isLeaf_keySorted]

@[simp] theorem fieldCommitment?_fieldCommitment (digest : JsString) :
    fieldCommitment? (fieldCommitment digest) = some digest := by
  simp [fieldCommitment?, fieldCommitment]

theorem fieldCommitment?_eq_some {digest : JsString} :
    fieldCommitment? v = some digest ↔ v = fieldCommitment digest := by
  constructor
  · intro h
    unfold fieldCommitment? at h
    split at h
    · rename_i key held
      split at h
      · rename_i hkey
        rw [hkey, Option.some.inj h]
        rfl
      · cases h
    · cases h
  · rintro rfl
    simp

theorem isCfcFieldCommitment_iff :
    isCfcFieldCommitment v = true ↔ ∃ digest, v = fieldCommitment digest := by
  rw [isCfcFieldCommitment, Option.isSome_iff_exists]
  simp only [fieldCommitment?_eq_some]

@[simp] theorem keySorted_fieldCommitment (digest : JsString) :
    keySorted (fieldCommitment digest) = fieldCommitment digest := rfl

theorem isDense_fieldCommitment (digest : JsString) : isDense (fieldCommitment digest) = true := by
  simp [fieldCommitment, isDense, fieldsAreDense]

/-- What compares as a commitment is one. -/
theorem eq_fieldCommitment_of_same {digest : JsString} (hv : isDense v = true)
    (h : sameValue v (fieldCommitment digest) = true) : v = fieldCommitment digest := by
  cases v with
  | record fields =>
    have hsorted : keySortedFields fields =
        ([("digestOf", .string digest)] : Members) := by
      have := sameValue_iff.1 h
      rw [keySorted_fieldCommitment] at this
      exact FabricValue.record.inj this
    have hlength : fields.length = 1 := by
      rw [← length_keySortedFields (isDense_record.1 hv).1, hsorted]
      rfl
    obtain ⟨⟨key, value⟩, rfl⟩ := List.length_eq_one_iff.1 hlength
    rw [keySortedFields, keySortedFields, Fields.set] at hsorted
    obtain ⟨rfl, hvalue⟩ := Prod.mk.inj (List.cons.inj hsorted).1
    rw [eq_string_of_keySorted hvalue]
    rfl
  | _ => simp [sameValue, keySorted, fieldCommitment] at h

theorem fieldCommitment?_of_same {a b : FabricValue} (ha : isDense a = true) (hb : isDense b = true)
    (h : sameValue a b = true) : fieldCommitment? a = fieldCommitment? b := by
  cases hd : fieldCommitment? a with
  | some digest =>
    rw [fieldCommitment?_eq_some] at hd
    rw [hd] at h
    rw [eq_fieldCommitment_of_same hb (sameValue_symm h)]
    simp
  | none =>
    cases he : fieldCommitment? b with
    | none => rfl
    | some digest =>
      rw [fieldCommitment?_eq_some] at he
      rw [he] at h
      rw [eq_fieldCommitment_of_same ha h] at hd
      simp at hd

theorem slotsContainCommitment_iff :
    slotsContainCommitment slots = true ↔
      ∃ value, some value ∈ slots ∧ containsCfcFieldCommitment value = true := by
  induction slots with
  | nil => simp [slotsContainCommitment]
  | cons slot slots ih =>
    cases slot with
    | none => simp [slotsContainCommitment, ih]
    | some value =>
      rw [slotsContainCommitment, Bool.or_eq_true, ih]
      constructor
      · rintro (h | ⟨v, hv, h⟩)
        · exact ⟨value, List.mem_cons_self, h⟩
        · exact ⟨v, List.mem_cons_of_mem _ hv, h⟩
      · rintro ⟨v, hv, h⟩
        cases hv with
        | head => exact .inl h
        | tail _ hv => exact .inr ⟨v, hv, h⟩

theorem fieldsContainCommitment_iff :
    fieldsContainCommitment fields = true ↔
      ∃ field ∈ fields, containsCfcFieldCommitment field.2 = true := by
  induction fields with
  | nil => simp [fieldsContainCommitment]
  | cons field fields ih => simp [fieldsContainCommitment, ih]

theorem get?_of_mem (h : (fields.map (·.1)).Nodup) {key : JsString}
    (hmem : (key, value) ∈ fields) : Fields.get? fields key = some value := by
  induction fields with
  | nil => cases hmem
  | cons field fields ih =>
    obtain ⟨name, held⟩ := field
    rw [List.map_cons, List.nodup_cons] at h
    rw [Fields.get?_cons]
    cases hmem with
    | head => rw [if_pos rfl]
    | tail _ hmem =>
      rw [if_neg, ih h.2 hmem]
      rintro rfl
      exact h.1 (List.mem_map.2 ⟨_, hmem, rfl⟩)

theorem plain_iff :
    containsCfcFieldCommitment (.record fields) = false ↔
      fieldCommitment? (.record fields) = none ∧
        ∀ field ∈ fields, containsCfcFieldCommitment field.2 = false := by
  have hfields : fieldsContainCommitment fields = false ↔
      ∀ field ∈ fields, containsCfcFieldCommitment field.2 = false := by
    rw [← Bool.not_eq_true, fieldsContainCommitment_iff]
    simp
  rw [containsCfcFieldCommitment, Bool.or_eq_false_iff, isCfcFieldCommitment,
    Option.isSome_eq_false_iff, Option.isNone_iff_eq_none, hfields]

theorem plain_not_commitment (h : containsCfcFieldCommitment v = false) :
    fieldCommitment? v = none := by
  cases v with
  | record fields => exact (plain_iff.1 h).1
  | _ => rfl

theorem plain_slot
    (h : containsCfcFieldCommitment (.array slots) = false) (hmem : some value ∈ slots) :
    containsCfcFieldCommitment value = false := by
  rw [containsCfcFieldCommitment] at h
  cases hvalue : containsCfcFieldCommitment value with
  | false => rfl
  | true => rw [slotsContainCommitment_iff.2 ⟨value, hmem, hvalue⟩] at h; cases h

section

variable {hashStringOf : FabricValue → JsString}

/-- What is compared of two values neither of which is a commitment. -/
inductive SameParts (R : FabricValue → FabricValue → Prop) : FabricValue → FabricValue → Prop
  | leaf {a b : FabricValue} (hleaf : isLeaf a = true) (h : sameValue a b = true) : SameParts R a b
  | array {s t : List (Option FabricValue)}
      (h : List.Forall₂ (fun x y => R (x.getD .undefined) (y.getD .undefined)) s t) :
      SameParts R (.array s) (.array t)
  | record {f g : Members} (h : ∀ key, Option.Rel R (Fields.get? f key) (Fields.get? g key)) :
      SameParts R (.record f) (.record g)

theorem slotsAwareEqual_iff {s t : List (Option FabricValue)} (hs : slotsAreDense s = true)
    (hlength : s.length = t.length) :
    slotsAwareEqual hashStringOf s t = true ↔ List.Forall₂ (fun x y =>
      commitmentAwareEquals hashStringOf (x.getD .undefined) (y.getD .undefined) = true) s t := by
  induction s generalizing t with
  | nil => cases t <;> simp_all [slotsAwareEqual]
  | cons slot s ih =>
    cases t with
    | nil => cases hlength
    | cons other t =>
      cases slot with
      | none => cases hs
      | some value =>
        rw [slotsAreDense, Bool.and_eq_true] at hs
        rw [slotsAwareEqual, Bool.and_eq_true, List.forall₂_cons, Option.getD_some,
          ih hs.2 (Nat.succ.inj hlength)]

theorem fieldsAwareEqual_iff {f g : Members} :
    fieldsAwareEqual hashStringOf f g = true ↔ ∀ field ∈ f, ∃ b, Fields.get? g field.1 = some b ∧
      commitmentAwareEquals hashStringOf field.2 b = true := by
  induction f with
  | nil => simp [fieldsAwareEqual]
  | cons field f ih =>
    obtain ⟨key, value⟩ := field
    rw [fieldsAwareEqual, Bool.and_eq_true, ih, List.forall_mem_cons]
    refine and_congr_left fun _ => ?_
    cases Fields.get? g key <;> simp

theorem mem_keys_iff {fields : Members} {key : JsString} :
    key ∈ fields.map (·.1) ↔ ∃ v, Fields.get? fields key = some v := by
  rw [← Option.isSome_iff_exists, ← not_iff_not, ← Fields.get?_eq_none_iff]
  simp

/-- Records of one length compare by what their keys hold. -/
theorem length_eq_and_fieldsAwareEqual_iff {f g : Members} (hf : (f.map (·.1)).Nodup)
    (hg : (g.map (·.1)).Nodup) :
    (f.length = g.length ∧ fieldsAwareEqual hashStringOf f g = true) ↔
      ∀ key, Option.Rel (fun a b => commitmentAwareEquals hashStringOf a b = true)
        (Fields.get? f key) (Fields.get? g key) := by
  rw [fieldsAwareEqual_iff]
  constructor
  · rintro ⟨hlength, h⟩ key
    have hsub : f.map (·.1) ⊆ g.map (·.1) := by
      intro k hk
      obtain ⟨field, hfield, rfl⟩ := List.mem_map.1 hk
      obtain ⟨b, hb, _⟩ := h field hfield
      exact mem_keys_iff.2 ⟨b, hb⟩
    have hperm : (f.map (·.1)).Perm (g.map (·.1)) :=
      (List.subperm_of_subset hf hsub).perm_of_length_le (by simp [hlength])
    cases hget : Fields.get? f key with
    | none =>
      have hnot : key ∉ g.map (·.1) := by
        rw [← hperm.mem_iff]
        exact Fields.get?_eq_none_iff.1 hget
      rw [Fields.get?_eq_none_iff.2 hnot]
      exact .none
    | some a =>
      obtain ⟨b, hb, heq⟩ := h (key, a) (Fields.mem_of_get? hget)
      rw [hb]
      exact .some heq
  · intro h
    have hkeys : (f.map (·.1)).Perm (g.map (·.1)) := by
      rw [List.perm_ext_iff_of_nodup hf hg]
      intro key
      rw [mem_keys_iff, mem_keys_iff]
      have := h key
      cases hfk : Fields.get? f key <;> cases hgk : Fields.get? g key <;> simp_all
    constructor
    · simpa using hkeys.length_eq
    · intro field hfield
      have := h field.1
      rw [get?_of_mem hf hfield] at this
      cases hgk : Fields.get? g field.1 with
      | none => rw [hgk] at this; cases this
      | some b =>
        rw [hgk, Option.rel_some_some] at this
        exact ⟨b, rfl, this⟩

/-- The comparison by parts that `commitmentAwareEquals` comes to. -/
def partsAwareEqual (hashStringOf : FabricValue → JsString) : FabricValue → FabricValue → Bool
  | .array s, .array t => s.length = t.length && slotsAwareEqual hashStringOf s t
  | .record f, .record g => f.length = g.length && fieldsAwareEqual hashStringOf f g
  | _, _ => false

theorem commitmentAwareEquals_eq (a b : FabricValue) :
    commitmentAwareEquals hashStringOf a b =
      commitmentOr hashStringOf a b (partsAwareEqual hashStringOf a b) := by
  cases a with
  | array s => cases b <;> rfl
  | record f => cases b <;> rfl
  | _ => rfl

variable {a b x : FabricValue} {R S : FabricValue → FabricValue → Prop}

theorem partsAwareEqual_iff (ha : isDense a = true) (hb : isDense b = true)
    (hdiffer : sameValue a b = false) :
    partsAwareEqual hashStringOf a b = true ↔
      SameParts (fun a b => commitmentAwareEquals hashStringOf a b = true) a b := by
  constructor
  · intro h
    cases a with
    | array s =>
      cases b with
      | array t =>
        simp only [partsAwareEqual, Bool.and_eq_true, decide_eq_true_iff] at h
        exact .array ((slotsAwareEqual_iff ha h.1).1 h.2)
      | _ => cases h
    | record f =>
      cases b with
      | record g =>
        simp only [partsAwareEqual, Bool.and_eq_true, decide_eq_true_iff] at h
        exact .record ((length_eq_and_fieldsAwareEqual_iff (isDense_record.1 ha).1
          (isDense_record.1 hb).1).1 h)
      | _ => cases h
    | _ => cases h
  · intro h
    cases h with
    | leaf _ h => rw [hdiffer] at h; cases h
    | array h =>
      rw [partsAwareEqual, Bool.and_eq_true, decide_eq_true_iff]
      exact ⟨h.length_eq, (slotsAwareEqual_iff ha h.length_eq).2 h⟩
    | record h =>
      rw [partsAwareEqual, Bool.and_eq_true, decide_eq_true_iff]
      exact (length_eq_and_fieldsAwareEqual_iff (isDense_record.1 ha).1 (isDense_record.1 hb).1).2 h

theorem aware_of_same (h : sameValue a b = true) :
    commitmentAwareEquals hashStringOf a b = true := by
  rw [commitmentAwareEquals_eq, commitmentOr, if_pos h]

theorem relMono (h : ∀ a b, R a b → S a b)
    {x y : Option FabricValue} (hxy : Option.Rel R x y) : Option.Rel S x y := by
  cases hxy with
  | some hab => exact .some (h _ _ hab)
  | none => exact .none

theorem SameParts.mono (h : ∀ a b, R a b → S a b) (hab : SameParts R a b) : SameParts S a b := by
  cases hab with
  | leaf hleaf hsame => exact .leaf hleaf hsame
  | array hslots => exact .array (hslots.imp fun _ _ => h _ _)
  | record hkeys =>
    apply SameParts.record
    intro key
    exact relMono h (hkeys key)

theorem sameParts_of_same (h : sameValue a b = true) :
    SameParts (fun a b => sameValue a b = true) a b := by
  cases a with
  | array s =>
    cases b with
    | array t =>
      apply SameParts.array
      have hmap := sameValue_array.1 h
      have hforall := (List.forall₂_map_left_iff (R := Eq) (f := Option.map keySorted)
        (l := s) (u := t.map (Option.map keySorted))).1 (List.forall₂_eq_eq_eq ▸ hmap)
      rw [List.forall₂_map_right_iff] at hforall
      refine hforall.imp fun x y heq => ?_
      rw [sameValue_iff]
      cases x <;> cases y <;> simp_all
    | _ => simp [sameValue, keySorted] at h
  | record f =>
    cases b with
    | record g => exact .record (sameValue_record.1 h)
    | _ => simp [sameValue, keySorted] at h
  | _ => exact .leaf rfl h

/-- What `commitmentAwareEquals` decides, by which of the two values are commitments. -/
theorem aware_iff (ha : isDense a = true) (hb : isDense b = true) :
    commitmentAwareEquals hashStringOf a b = true ↔
      match fieldCommitment? a, fieldCommitment? b with
      | some digest, some digest' => digest = digest'
      | some digest, none => hashStringOf (keySorted b) = digest
      | none, some digest => hashStringOf (keySorted a) = digest
      | none, none => SameParts (fun a b => commitmentAwareEquals hashStringOf a b = true) a b := by
  rw [commitmentAwareEquals_eq, commitmentOr]
  cases hsame : sameValue a b with
  | true =>
    have hmarkers := fieldCommitment?_of_same ha hb hsame
    have hparts : SameParts (fun a b => commitmentAwareEquals hashStringOf a b = true) a b :=
      (sameParts_of_same hsame).mono fun _ _ => aware_of_same
    cases hd : fieldCommitment? a with
    | none => rw [hmarkers.symm.trans hd]; simpa using hparts
    | some digest => rw [hmarkers.symm.trans hd]; simp
  | false =>
    have hiff : partsAwareEqual hashStringOf a b = true ↔ _ := partsAwareEqual_iff ha hb hsame
    cases hd : fieldCommitment? a with
    | none => cases he : fieldCommitment? b <;> simp [hiff]
    | some digest =>
      cases he : fieldCommitment? b with
      | none => simp
      | some digest' =>
        have hne : digest ≠ digest' := by
          rintro rfl
          rw [fieldCommitment?_eq_some.1 hd, fieldCommitment?_eq_some.1 he, sameValue_refl] at hsame
          cases hsame
        simp [hne]

/-- Two values that stand at one place of two others. -/
inductive Aligned : FabricValue → FabricValue → FabricValue → FabricValue → Prop
  | slot {s t : List (Option FabricValue)} {i : Nat} {x y : FabricValue}
      (hx : s[i]? = some (some x)) (hy : t[i]? = some (some y)) :
      Aligned (.array s) (.array t) x y
  | field {f g : Members} {key : JsString} {x y : FabricValue}
      (hx : Fields.get? f key = some x) (hy : Fields.get? g key = some y) :
      Aligned (.record f) (.record g) x y

theorem Aligned.symm {y : FabricValue} (h : Aligned a b x y) : Aligned b a y x := by
  cases h with
  | slot hx hy => exact .slot hy hx
  | field hx hy => exact .field hy hx

theorem Aligned.sizeOf {y : FabricValue} (h : Aligned a b x y) :
    SizeOf.sizeOf x < SizeOf.sizeOf a := by
  cases h with
  | slot hx hy => exact sizeOf_slot (List.mem_of_getElem? hx)
  | field hx hy => exact sizeOf_member (Fields.mem_of_get? hx)

theorem Aligned.dense {y : FabricValue} (h : Aligned a b x y) (ha : isDense a = true) :
    isDense x = true := by
  cases h with
  | slot hx hy => exact isDense_slot ha (List.mem_of_getElem? hx)
  | field hx hy => exact isDense_member ha hx

theorem Aligned.plain {y : FabricValue} (h : Aligned a b x y)
    (ha : containsCfcFieldCommitment a = false) : containsCfcFieldCommitment x = false := by
  cases h with
  | slot hx hy => exact plain_slot ha (List.mem_of_getElem? hx)
  | field hx hy => exact (plain_iff.1 ha).2 _ (Fields.mem_of_get? hx)

theorem slot_of_dense {s : List (Option FabricValue)} (hs : isDense (.array s) = true) {i : Nat}
    (hi : i < s.length) : ∃ x, s[i]? = some (some x) ∧ s.get ⟨i, hi⟩ = some x := by
  rw [isDense] at hs
  obtain ⟨x, hx, _⟩ := slotsAreDense_iff.1 hs _ (List.get_mem s ⟨i, hi⟩)
  refine ⟨x, ?_, hx⟩
  rw [← hx, List.get_eq_getElem, List.getElem?_eq_getElem hi]

theorem SameParts.symm (ha : isDense a = true) (hb : isDense b = true) (h : SameParts R a b)
    (hstep : ∀ x y, Aligned a b x y → R x y → S y x) : SameParts S b a := by
  cases h with
  | leaf hleaf hsame => exact .leaf (isLeaf_of_same hsame ▸ hleaf) (sameValue_symm hsame)
  | array hslots =>
    obtain ⟨hlength, hget⟩ := List.forall₂_iff_get.1 hslots
    apply SameParts.array
    rw [List.forall₂_iff_get]
    refine ⟨hlength.symm, fun i ht hs => ?_⟩
    obtain ⟨x, hx, hxs⟩ := slot_of_dense ha hs
    obtain ⟨y, hy, hyt⟩ := slot_of_dense hb ht
    have hR := hget i hs ht
    rw [hxs, hyt] at hR ⊢
    exact hstep x y (.slot hx hy) hR
  | @record f g hkeys =>
    apply SameParts.record
    intro key
    have hR := hkeys key
    cases hx : Fields.get? f key with
    | none =>
      cases hy : Fields.get? g key with
      | none => exact .none
      | some y => rw [hx, hy] at hR; cases hR
    | some x =>
      cases hy : Fields.get? g key with
      | none => rw [hx, hy] at hR; cases hR
      | some y =>
        rw [hx, hy, Option.rel_some_some] at hR
        exact .some (hstep x y (.field hx hy) hR)

theorem SameParts.trans {T : FabricValue → FabricValue → Prop} {c : FabricValue}
    (ha : isDense a = true) (hb : isDense b = true) (hc : isDense c = true)
    (hab : SameParts R a b) (hbc : SameParts S b c)
    (hstep : ∀ x y z, Aligned a b x y → Aligned b c y z → Aligned a c x z → R x y → S y z →
      T x z) : SameParts T a c := by
  cases hab with
  | leaf hleaf hsame =>
    cases hbc with
    | leaf _ hsame' => exact .leaf hleaf (sameValue_trans hsame hsame')
    | array _ => rw [isLeaf_of_same hsame] at hleaf; cases hleaf
    | record _ => rw [isLeaf_of_same hsame] at hleaf; cases hleaf
  | array hslots =>
    cases hbc with
    | leaf hleaf _ => cases hleaf
    | array hslots' =>
      obtain ⟨hlength, hget⟩ := List.forall₂_iff_get.1 hslots
      obtain ⟨hlength', hget'⟩ := List.forall₂_iff_get.1 hslots'
      apply SameParts.array
      rw [List.forall₂_iff_get]
      refine ⟨hlength.trans hlength', fun i hs hu => ?_⟩
      have ht := hlength ▸ hs
      obtain ⟨x, hx, hxs⟩ := slot_of_dense ha hs
      obtain ⟨y, hy, hyt⟩ := slot_of_dense hb ht
      obtain ⟨z, hz, hzu⟩ := slot_of_dense hc hu
      have hR := hget i hs ht
      have hS := hget' i ht hu
      rw [hxs, hyt] at hR
      rw [hyt, hzu] at hS
      rw [hxs, hzu]
      exact hstep x y z (.slot hx hy) (.slot hy hz) (.slot hx hz) hR hS
  | @record f g hkeys =>
    cases hbc with
    | leaf hleaf _ => cases hleaf
    | @record _ k hkeys' =>
      apply SameParts.record
      intro key
      have hR := hkeys key
      have hS := hkeys' key
      cases hx : Fields.get? f key with
      | none =>
        rw [hx] at hR
        cases hy : Fields.get? g key with
        | some y => rw [hy] at hR; cases hR
        | none =>
          rw [hy] at hS
          cases hz : Fields.get? k key with
          | some z => rw [hz] at hS; cases hS
          | none => exact .none
      | some x =>
        cases hy : Fields.get? g key with
        | none => rw [hx, hy] at hR; cases hR
        | some y =>
          cases hz : Fields.get? k key with
          | none => rw [hy, hz] at hS; cases hS
          | some z =>
            rw [hx, hy, Option.rel_some_some] at hR
            rw [hy, hz, Option.rel_some_some] at hS
            exact .some (hstep x y z (.field hx hy) (.field hy hz) (.field hx hz) hR hS)

theorem aware_symm (ha : isDense a = true) (hb : isDense b = true)
    (h : commitmentAwareEquals hashStringOf a b = true) :
    commitmentAwareEquals hashStringOf b a = true := by
  induction hsize : sizeOf a using Nat.strongRecOn generalizing a b with
  | ind n ih =>
    subst hsize
    rw [aware_iff ha hb] at h
    rw [aware_iff hb ha]
    cases hd : fieldCommitment? a with
    | some digest =>
      cases he : fieldCommitment? b with
      | some digest' => simp_all
      | none => simp_all
    | none =>
      cases he : fieldCommitment? b with
      | some digest' => simp_all
      | none =>
        rw [hd, he] at h
        exact h.symm ha hb fun x y hxy hR =>
          ih _ hxy.sizeOf (hxy.dense ha) (hxy.symm.dense hb) hR rfl

theorem same_of_sameParts (ha : isDense a = true) (hb : isDense b = true)
    (h : SameParts (fun a b => sameValue a b = true) a b) : sameValue a b = true := by
  cases h with
  | leaf _ h => exact h
  | record h => exact sameValue_record.2 h
  | @array s t h =>
    obtain ⟨hlength, hget⟩ := List.forall₂_iff_get.1 h
    rw [sameValue_array]
    apply List.ext_get
    · simpa using hlength
    · intro i hs ht
      rw [List.length_map] at hs ht
      obtain ⟨x, _, hx⟩ := slot_of_dense ha hs
      obtain ⟨y, _, hy⟩ := slot_of_dense hb ht
      have hsame := hget i hs ht
      rw [hx, hy, Option.getD_some, Option.getD_some] at hsame
      simp only [List.get_eq_getElem, List.getElem_map] at hx hy ⊢
      rw [hx, hy, Option.map_some, Option.map_some, sameValue_iff.1 hsame]

/-- Values without commitments are equal only when they are the same. -/
theorem same_of_aware (ha : isDense a = true) (hb : isDense b = true)
    (haplain : containsCfcFieldCommitment a = false)
    (hbplain : containsCfcFieldCommitment b = false)
    (h : commitmentAwareEquals hashStringOf a b = true) : sameValue a b = true := by
  induction hsize : sizeOf a using Nat.strongRecOn generalizing a b with
  | ind n ih =>
    subst hsize
    rw [aware_iff ha hb, plain_not_commitment haplain, plain_not_commitment hbplain] at h
    have hflip : SameParts (fun a b => sameValue a b = true) b a :=
      h.symm ha hb fun x y hxy hR => sameValue_symm (ih _ hxy.sizeOf (hxy.dense ha)
        (hxy.symm.dense hb) (hxy.plain haplain) (hxy.symm.plain hbplain) hR rfl)
    exact sameValue_symm (same_of_sameParts hb ha hflip)

mutual
/-- The value and everything it holds. -/
def parts : FabricValue → List FabricValue
  | .array slots => .array slots :: slotsParts slots
  | .record fields => .record fields :: fieldsParts fields
  | value => [value]

def slotsParts : List (Option FabricValue) → List FabricValue
  | [] => []
  | none :: slots => slotsParts slots
  | some value :: slots => parts value ++ slotsParts slots

def fieldsParts : Members → List FabricValue
  | [] => []
  | (_, value) :: fields => parts value ++ fieldsParts fields
end

/-- Values of one digest are the same. -/
def DigestsDiffer (hashStringOf : FabricValue → JsString) (values : List FabricValue) : Prop :=
  ∀ u ∈ values, ∀ v ∈ values,
    hashStringOf (keySorted u) = hashStringOf (keySorted v) → sameValue u v = true

instance (values : List FabricValue) : Decidable (DigestsDiffer hashStringOf values) :=
  inferInstanceAs (Decidable (∀ u ∈ values, ∀ v ∈ values, _ → _))

theorem DigestsDiffer.mono {xs ys : List FabricValue} (h : DigestsDiffer hashStringOf ys)
    (hsub : ∀ x ∈ xs, x ∈ ys) : DigestsDiffer hashStringOf xs :=
  fun u hu v hv => h u (hsub u hu) v (hsub v hv)

theorem self_mem_parts (v : FabricValue) : v ∈ parts v := by
  cases v <;> simp [parts]

theorem mem_slotsParts {slots : List (Option FabricValue)} {value : FabricValue}
    (hmem : some value ∈ slots) (hx : x ∈ parts value) : x ∈ slotsParts slots := by
  induction slots with
  | nil => cases hmem
  | cons slot slots ih =>
    cases hmem with
    | head => exact List.mem_append_left _ hx
    | tail _ hmem =>
      cases slot with
      | none => exact ih hmem
      | some held => exact List.mem_append_right _ (ih hmem)

theorem mem_fieldsParts {fields : Members} {key : JsString} {value : FabricValue}
    (hmem : (key, value) ∈ fields) (hx : x ∈ parts value) : x ∈ fieldsParts fields := by
  induction fields with
  | nil => cases hmem
  | cons field fields ih =>
    cases hmem with
    | head => exact List.mem_append_left _ hx
    | tail _ hmem => exact List.mem_append_right _ (ih hmem)

theorem Aligned.parts {y : FabricValue} (h : Aligned a b x y) {v : FabricValue}
    (hv : v ∈ Cfc.parts x) : v ∈ Cfc.parts a := by
  cases h with
  | slot hx hy => exact List.mem_cons_of_mem _ (mem_slotsParts (List.mem_of_getElem? hx) hv)
  | field hx hy => exact List.mem_cons_of_mem _ (mem_fieldsParts (Fields.mem_of_get? hx) hv)

/-- Somewhere the first value is a commitment where the second holds one further in. -/
inductive CommitsOver : FabricValue → FabricValue → Prop
  | here {a b : FabricValue} (ha : isCfcFieldCommitment a = true)
      (hb : isCfcFieldCommitment b = false) (hwithin : containsCfcFieldCommitment b = true) :
      CommitsOver a b
  | within {a b x y : FabricValue} (hxy : Aligned a b x y) (h : CommitsOver x y) : CommitsOver a b

/-- Neither commits over a commitment of the other. -/
structure Level (a b : FabricValue) : Prop where
  left : ¬CommitsOver a b
  right : ¬CommitsOver b a

theorem Level.symm (h : Level a b) : Level b a := ⟨h.right, h.left⟩

theorem Level.aligned {y : FabricValue} (h : Level a b) (hxy : Aligned a b x y) :
    Level x y :=
  ⟨fun hover => h.left (.within hxy hover), fun hover => h.right (.within hxy.symm hover)⟩

theorem Level.plain (h : Level a b) {digest : JsString}
    (ha : fieldCommitment? a = some digest) (hb : fieldCommitment? b = none) :
    containsCfcFieldCommitment b = false := by
  cases hwithin : containsCfcFieldCommitment b with
  | false => rfl
  | true =>
    refine absurd (CommitsOver.here ?_ ?_ hwithin) h.left
    · rw [isCfcFieldCommitment, ha]
      rfl
    · rw [isCfcFieldCommitment, hb]
      rfl

theorem Aligned.contains {y : FabricValue} (h : Aligned a b x y)
    (hx : containsCfcFieldCommitment x = true) : containsCfcFieldCommitment a = true := by
  cases ha : containsCfcFieldCommitment a with
  | true => rfl
  | false =>
    rw [h.plain ha] at hx
    cases hx

theorem CommitsOver.contains (h : CommitsOver a b) :
    containsCfcFieldCommitment a = true ∧ containsCfcFieldCommitment b = true := by
  induction h with
  | here ha _ hwithin =>
    obtain ⟨digest, rfl⟩ := isCfcFieldCommitment_iff.1 ha
    exact ⟨by simp [fieldCommitment, containsCfcFieldCommitment, isCfcFieldCommitment,
      fieldCommitment?], hwithin⟩
  | within hxy _ ih => exact ⟨hxy.contains ih.1, hxy.symm.contains ih.2⟩

/-- A value without commitments is level with any. -/
theorem level_of_plain (h : containsCfcFieldCommitment a = false) :
    Level a b := by
  constructor
  · intro hover
    rw [hover.contains.1] at h
    cases h
  · intro hover
    rw [hover.contains.2] at h
    cases h

theorem aware_trans {c : FabricValue} (ha : isDense a = true) (hb : isDense b = true)
    (hc : isDense c = true) (hlab : Level a b) (hlbc : Level b c) (hlac : Level a c)
    (hdigests : DigestsDiffer hashStringOf (parts a ++ parts b ++ parts c))
    (hab : commitmentAwareEquals hashStringOf a b = true)
    (hbc : commitmentAwareEquals hashStringOf b c = true) :
    commitmentAwareEquals hashStringOf a c = true := by
  induction hsize : sizeOf a using Nat.strongRecOn generalizing a b c with
  | ind n ih =>
    subst hsize
    have hab' := (aware_iff ha hb).1 hab
    have hbc' := (aware_iff hb hc).1 hbc
    rw [aware_iff ha hc]
    cases hda : fieldCommitment? a with
    | some digest =>
      cases hdb : fieldCommitment? b with
      | some digest' =>
        rw [hda, hdb] at hab'
        have heq : digest = digest' := hab'
        rw [hdb, ← heq] at hbc'
        cases hdc : fieldCommitment? c with
        | some digest'' => rw [hdc] at hbc'; exact hbc'
        | none => rw [hdc] at hbc'; exact hbc'
      | none =>
        rw [hda, hdb] at hab'
        rw [hdb] at hbc'
        cases hdc : fieldCommitment? c with
        | some digest'' =>
          rw [hdc] at hbc'
          exact hab'.symm.trans hbc'
        | none =>
          -- Neither `b` nor `c` holds a commitment where `a` is one.
          have hsame := same_of_aware hb hc (hlab.plain hda hdb) (hlac.plain hda hdc) hbc
          show hashStringOf (keySorted c) = digest
          rw [← sameValue_iff.1 hsame]
          exact hab'
    | none =>
      cases hdb : fieldCommitment? b with
      | some digest =>
        rw [hda, hdb] at hab'
        rw [hdb] at hbc'
        cases hdc : fieldCommitment? c with
        | some digest' =>
          rw [hdc] at hbc'
          exact Eq.trans hab' hbc'
        | none =>
          rw [hdc] at hbc'
          have hsame := hdigests a (by simp [self_mem_parts]) c (by simp [self_mem_parts])
            (Eq.trans hab' (Eq.symm hbc'))
          have haware : commitmentAwareEquals hashStringOf a c = true := aware_of_same hsame
          rw [aware_iff ha hc, hda, hdc] at haware
          exact haware
      | none =>
        rw [hda, hdb] at hab'
        rw [hdb] at hbc'
        cases hdc : fieldCommitment? c with
        | some digest =>
          rw [hdc] at hbc'
          have hsame := same_of_aware ha hb (hlac.symm.plain hdc hda) (hlbc.symm.plain hdc hdb) hab
          show hashStringOf (keySorted a) = digest
          rw [sameValue_iff.1 hsame]
          exact hbc'
        | none =>
          rw [hdc] at hbc'
          refine hab'.trans ha hb hc hbc' fun x y z hxy hyz hxz hx hz => ?_
          refine ih _ hxy.sizeOf (hxy.dense ha) (hyz.dense hb) (hxz.symm.dense hc)
            (hlab.aligned hxy) (hlbc.aligned hyz) (hlac.aligned hxz) (hdigests.mono ?_) hx hz rfl
          intro v hv
          simp only [List.mem_append] at hv ⊢
          rcases hv with (hv | hv) | hv
          · exact .inl (.inl (hxy.parts hv))
          · exact .inl (.inr (hyz.parts hv))
          · exact .inr (hyz.symm.parts hv)

end
end Cfc
