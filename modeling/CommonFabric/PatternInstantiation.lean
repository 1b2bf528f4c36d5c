import CommonFabric.PatternConjunction

/-!
# Instantiated patterns

A pattern that has matched an atom is instantiated with what its variables are bound to, and
matches the result again, with the same bindings.
-/

namespace Cfc

mutual
/-- The variables of a pattern in the order they are matched in, each as often as it occurs. -/
def patternVars : AtomPattern → List JsString
  | .array slots => slotVars slots
  | .record fields =>
    match atomVarPlaceholder? (.record fields) with
    | some name => [name]
    | none => fieldVars fields
  | _ => []

def slotVars : List (Option AtomPattern) → List JsString
  | [] => []
  | none :: slots => slotVars slots
  | some pattern :: slots => patternVars pattern ++ slotVars slots

def fieldVars : Members → List JsString
  | [] => []
  | (_, pattern) :: fields =>
    if pattern = .undefined then fieldVars fields else patternVars pattern ++ fieldVars fields
end

/-- The fields that a record pattern names, other than those that have to be absent. -/
def definedFields (fields : Members) : Members := fields.filter fun field => field.2 ≠ .undefined

/-- A record, no commitment itself, of which the instantiation can be one. -/
def becomesCommitment (fields : Members) : Bool :=
  !isCfcFieldCommitment (.record fields) &&
    match definedFields fields with
    | [(key, .string _)] => key = "digestOf"
    | [(key, pattern)] => key = "digestOf" && (atomVarPlaceholder? pattern).isSome
    | _ => false

mutual
/-- No key stands twice in a record, and no record becomes a commitment. -/
def isRegular : AtomPattern → Bool
  | .array slots => slotsAreRegular slots
  | .record fields =>
    decide (fields.map (·.1)).Nodup && !becomesCommitment fields && fieldsAreRegular fields
  | _ => true

def slotsAreRegular : List (Option AtomPattern) → Bool
  | [] => true
  | none :: slots => slotsAreRegular slots
  | some pattern :: slots => isRegular pattern && slotsAreRegular slots

def fieldsAreRegular : Members → Bool
  | [] => true
  | (_, pattern) :: fields => isRegular pattern && fieldsAreRegular fields
end

mutual
/-- A `CfcAtom`, which is a JSON value. -/
def isCfcAtom : FabricValue → Bool
  | .null | .bool _ | .number _ | .string _ => true
  | .array slots => slotsAreAtoms slots
  | .record fields => decide (fields.map (·.1)).Nodup && fieldsAreAtoms fields
  | _ => false

def slotsAreAtoms : List (Option FabricValue) → Bool
  | [] => true
  | none :: _ => false
  | some value :: slots => isCfcAtom value && slotsAreAtoms slots

def fieldsAreAtoms : Members → Bool
  | [] => true
  | (_, value) :: fields => isCfcAtom value && fieldsAreAtoms fields
end

theorem isCfcAtom_slot {slots : List (Option FabricValue)} {slot : Option FabricValue}
    (h : slotsAreAtoms slots = true) (hmem : slot ∈ slots) :
    isCfcAtom (slot.getD .undefined) = true := by
  induction slots with
  | nil => cases hmem
  | cons head slots ih =>
    cases head with
    | none => cases h
    | some value =>
      rw [slotsAreAtoms, Bool.and_eq_true] at h
      cases hmem with
      | head => exact h.1
      | tail _ hmem => exact ih h.2 hmem

theorem isCfcAtom_field {fields : Members} {field : JsString × FabricValue}
    (h : fieldsAreAtoms fields = true) (hmem : field ∈ fields) : isCfcAtom field.2 = true := by
  induction fields with
  | nil => cases hmem
  | cons head fields ih =>
    obtain ⟨key, value⟩ := head
    rw [fieldsAreAtoms, Bool.and_eq_true] at h
    cases hmem with
    | head => exact h.1
    | tail _ hmem => exact ih h.2 hmem

theorem isCfcAtom_partClosed : PartClosed fun v => isCfcAtom v = true where
  slot h hmem := isCfcAtom_slot h hmem
  field := by
    intro fields key value h hget
    rw [isCfcAtom, Bool.and_eq_true] at h
    exact isCfcAtom_field h.2 (Fields.mem_of_get? hget)

section

variable {hashStringOf : FabricValue → JsString}

theorem atomVarPlaceholder?_eq_some {v : FabricValue} {name : JsString} :
    atomVarPlaceholder? v = some name ↔
      v = .record [("var", .string name)] ∧ name.units ≠ [] := by
  constructor
  · intro h
    unfold atomVarPlaceholder? at h
    split at h
    · rename_i key held
      split at h
      · rename_i hshape
        rw [hshape.1, Option.some.inj h]
        exact ⟨rfl, Option.some.inj h ▸ hshape.2⟩
      · cases h
    · cases h
  · rintro ⟨rfl, hname⟩
    simp [atomVarPlaceholder?, hname]

variable {fields found : Members} {pattern : AtomPattern} {value : FabricValue}
  {bindings : AtomPatternBindings}

theorem placeholder_of_no_var (h : Fields.get? fields "var" = none) :
    atomVarPlaceholder? (.record fields) = none := by
  rw [Option.eq_none_iff_forall_ne_some]
  intro name hname
  rw [FabricValue.record.inj (atomVarPlaceholder?_eq_some.1 hname).1, Fields.get?_cons,
    if_pos rfl] at h
  cases h

theorem wellFormed_of_no_var (h : Fields.get? fields "var" = none) :
    isMalformedVarBearingRecord (.record fields) = false := by
  rw [isMalformedVarBearingRecord, h]
  rfl

mutual
theorem patternVars_of_concrete : (pattern : AtomPattern) → patternIsConcrete pattern = true →
    patternVars pattern = []
  | .array slots, h => by
    rw [patternVars]
    exact slotVars_of_concrete slots h
  | .record fields, h => by
    rw [patternIsConcrete, Bool.and_eq_true, Option.isNone_iff_eq_none] at h
    rw [patternVars, placeholder_of_no_var h.1]
    exact fieldVars_of_concrete fields h.2
  | .undefined, _ => rfl
  | .null, _ => rfl
  | .bool _, _ => rfl
  | .number _, _ => rfl
  | .string _, _ => rfl
  | .bigint _, _ => rfl
  | .symbol _, _ => rfl
  | .special _ _, _ => rfl

theorem slotVars_of_concrete : (slots : List (Option AtomPattern)) →
    slotsAreConcrete slots = true → slotVars slots = []
  | [], _ => rfl
  | none :: slots, h => slotVars_of_concrete slots h
  | some pattern :: slots, h => by
    rw [slotsAreConcrete, Bool.and_eq_true] at h
    rw [slotVars, patternVars_of_concrete pattern h.1, slotVars_of_concrete slots h.2]
    rfl

theorem fieldVars_of_concrete : (fields : Members) → fieldsAreConcrete fields = true →
    fieldVars fields = []
  | [], _ => rfl
  | (key, pattern) :: fields, h => by
    rw [fieldsAreConcrete, Bool.and_eq_true, Bool.and_eq_true] at h
    rw [fieldVars, patternVars_of_concrete pattern h.1.2, fieldVars_of_concrete fields h.2]
    simp
end

theorem commitment_has_no_var {v : FabricValue} (h : isCfcFieldCommitment v = true) :
    atomVarPlaceholder? v = none ∧ isMalformedVarBearingRecord v = false ∧ patternVars v = [] := by
  obtain ⟨digest, rfl⟩ := isCfcFieldCommitment_iff.1 h
  have hfree : Fields.get? ([("digestOf", .string digest)] : Members) "var" = none := by
    rw [Fields.get?_cons, if_neg (by decide), Fields.get?_nil]
  have hnone := placeholder_of_no_var hfree
  refine ⟨hnone, wellFormed_of_no_var hfree, ?_⟩
  rw [fieldCommitment, patternVars, hnone]
  rfl

theorem occurrencesGuarded_vars {byParts : Option Members}
    (h : occurrencesGuarded hashStringOf pattern value byParts = some found)
    (hname : ∀ name, atomVarPlaceholder? pattern = some name → patternVars pattern = [name])
    (hparts : atomVarPlaceholder? pattern = none → byParts = some found →
      found.map (·.1) = patternVars pattern) : found.map (·.1) = patternVars pattern := by
  rw [occurrencesGuarded] at h
  split at h
  · cases h
  split at h
  · rename_i name hvar
    cases h
    rw [hname name hvar]
    rfl
  rename_i hvar
  split at h
  · cases h
  split at h
  · rename_i hmarker
    split at h
    · cases h
      rw [(commitment_has_no_var hmarker).2.2]
      rfl
    · cases h
  split at h
  · split at h
    · rename_i hconcrete
      cases h
      rw [Bool.and_eq_true] at hconcrete
      rw [patternVars_of_concrete pattern hconcrete.1]
      rfl
    · cases h
  · exact hparts hvar h

theorem leafOccurrences_vars
    (hleaf : isLeaf pattern = true) (h : leafOccurrences hashStringOf pattern value = some found) :
    found.map (·.1) = [] ∧ patternVars pattern = [] := by
  have hvars : patternVars pattern = [] := by
    cases pattern with
    | array _ => cases hleaf
    | record _ => cases hleaf
    | _ => rfl
  refine ⟨?_, hvars⟩
  rw [← hvars]
  refine occurrencesGuarded_vars h (fun name hname => ?_) fun _ hparts => ?_
  · rw [(atomVarPlaceholder?_eq_some.1 hname).1] at hleaf
    cases hleaf
  · rw [hvars]
    split at hparts
    · cases hparts
      rfl
    · cases hparts

theorem append_vars {here rest : Option Members} {xs ys : List JsString}
    (h : (here.bind fun xs => rest.map (xs ++ ·)) = some found)
    (hhere : ∀ found, here = some found → found.map (·.1) = xs)
    (hrest : ∀ found, rest = some found → found.map (·.1) = ys) :
    found.map (·.1) = xs ++ ys := by
  obtain ⟨first, hfirst, hmap⟩ := Option.bind_eq_some_iff.1 h
  obtain ⟨second, hsecond, rfl⟩ := Option.map_eq_some_iff.1 hmap
  rw [List.map_append, hhere first hfirst, hrest second hsecond]

mutual
/-- What stands under the variables is listed by the pattern's variables. -/
theorem occurrences_vars : (pattern : AtomPattern) → (value : FabricValue) → (found : Members) →
    occurrences hashStringOf pattern value = some found → found.map (·.1) = patternVars pattern
  | .array slots, value, found, h => by
    rw [occurrences] at h
    refine occurrencesGuarded_vars h (fun name hname => ?_) fun _ hparts => ?_
    · cases (atomVarPlaceholder?_eq_some.1 hname).1
    · cases hvalues : arraySlots? value with
      | none => rw [hvalues] at hparts; cases hparts
      | some values =>
        rw [hvalues] at hparts
        dsimp only at hparts
        split at hparts
        · rename_i hlength
          exact slotOccurrences_vars slots values hlength found hparts
        · cases hparts
  | .record fields, value, found, h => by
    rw [occurrences] at h
    refine occurrencesGuarded_vars h (fun name hname => ?_) fun hnone hparts => ?_
    · rw [patternVars, hname]
    · rw [patternVars, hnone]
      cases hmembers : objectMembers? value with
      | none => rw [hmembers] at hparts; cases hparts
      | some members =>
        rw [hmembers] at hparts
        exact fieldOccurrences_vars fields members found hparts
  | .undefined, _, _, h => (@leafOccurrences_vars hashStringOf _ .undefined _ rfl h).1
  | .null, _, _, h => (@leafOccurrences_vars hashStringOf _ .null _ rfl h).1
  | .bool b, _, _, h => (@leafOccurrences_vars hashStringOf _ (.bool b) _ rfl h).1
  | .number n, _, _, h => (@leafOccurrences_vars hashStringOf _ (.number n) _ rfl h).1
  | .string s, _, _, h => (@leafOccurrences_vars hashStringOf _ (.string s) _ rfl h).1
  | .bigint i, _, _, h => (@leafOccurrences_vars hashStringOf _ (.bigint i) _ rfl h).1
  | .symbol k, _, _, h => (@leafOccurrences_vars hashStringOf _ (.symbol k) _ rfl h).1
  | .special t s, _, _, h => (@leafOccurrences_vars hashStringOf _ (.special t s) _ rfl h).1

theorem slotOccurrences_vars : (slots : List (Option AtomPattern)) →
    (values : List (Option FabricValue)) → values.length = slots.length → (found : Members) →
    slotOccurrences hashStringOf slots values = some found → found.map (·.1) = slotVars slots
  | [], values, _, found, h => by cases values <;> cases h <;> rfl
  | none :: slots, [], hlength, found, h => by cases hlength
  | some pattern :: slots, [], hlength, found, h => by cases hlength
  | none :: slots, value :: values, hlength, found, h => by
    rw [slotOccurrences] at h
    rw [slotVars, ← List.nil_append (slotVars slots)]
    exact append_vars h (fun xs hxs => (leafOccurrences_vars rfl hxs).1)
      fun ys hys => slotOccurrences_vars slots values (Nat.succ.inj hlength) ys hys
  | some pattern :: slots, value :: values, hlength, found, h => by
    rw [slotOccurrences] at h
    rw [slotVars]
    exact append_vars h (fun xs hxs => occurrences_vars pattern _ xs hxs)
      fun ys hys => slotOccurrences_vars slots values (Nat.succ.inj hlength) ys hys

theorem fieldOccurrences_vars : (fields members found : Members) →
    fieldOccurrences hashStringOf fields members = some found → found.map (·.1) = fieldVars fields
  | [], members, found, h => by cases h; rfl
  | (key, pattern) :: fields, members, found, h => by
    rw [fieldOccurrences] at h
    rw [fieldVars]
    cases hget : Fields.get? members key with
    | none =>
      rw [hget] at h
      dsimp only at h
      split at h
      · rw [if_pos ‹_›]
        exact fieldOccurrences_vars fields members found h
      · cases h
    | some value =>
      rw [hget] at h
      dsimp only at h
      split at h
      · cases h
      · rw [if_neg ‹_›]
        exact append_vars h (fun xs hxs => occurrences_vars pattern value xs hxs)
          fun ys hys => fieldOccurrences_vars fields members ys hys
end

mutual
theorem instantiate_of_concrete : (pattern : AtomPattern) → patternIsConcrete pattern = true →
    (bindings : AtomPatternBindings) → ∃ value, instantiateAtomPattern pattern bindings = some value
  | .array slots, h, bindings => by
    obtain ⟨values, hvalues⟩ := instantiateSlots_of_concrete slots h bindings
    exact ⟨.array values, by rw [instantiateAtomPattern, hvalues]; rfl⟩
  | .record fields, h, bindings => by
    rw [patternIsConcrete, Bool.and_eq_true, Option.isNone_iff_eq_none] at h
    obtain ⟨members, hmembers⟩ := instantiateFields_of_concrete fields h.2 bindings
    refine ⟨.record members, ?_⟩
    rw [instantiateAtomPattern, placeholder_of_no_var h.1, wellFormed_of_no_var h.1, hmembers]
    rfl
  | .undefined, _, _ => ⟨_, rfl⟩
  | .null, _, _ => ⟨_, rfl⟩
  | .bool _, _, _ => ⟨_, rfl⟩
  | .number _, _, _ => ⟨_, rfl⟩
  | .string _, _, _ => ⟨_, rfl⟩
  | .bigint _, _, _ => ⟨_, rfl⟩
  | .symbol _, _, _ => ⟨_, rfl⟩
  | .special _ _, _, _ => ⟨_, rfl⟩

theorem instantiateSlots_of_concrete : (slots : List (Option AtomPattern)) →
    slotsAreConcrete slots = true → (bindings : AtomPatternBindings) →
    ∃ values, instantiateSlots slots bindings = some values
  | [], _, _ => ⟨[], rfl⟩
  | none :: slots, h, bindings => by
    obtain ⟨values, hvalues⟩ := instantiateSlots_of_concrete slots h bindings
    exact ⟨_, by rw [instantiateSlots, hvalues]; rfl⟩
  | some pattern :: slots, h, bindings => by
    rw [slotsAreConcrete, Bool.and_eq_true] at h
    obtain ⟨value, hvalue⟩ := instantiate_of_concrete pattern h.1 bindings
    obtain ⟨values, hvalues⟩ := instantiateSlots_of_concrete slots h.2 bindings
    exact ⟨some value :: values, by rw [instantiateSlots, hvalue, hvalues]; rfl⟩

theorem instantiateFields_of_concrete : (fields : Members) → fieldsAreConcrete fields = true →
    (bindings : AtomPatternBindings) → ∃ members, instantiateFields fields bindings = some members
  | [], _, _ => ⟨[], rfl⟩
  | (key, pattern) :: fields, h, bindings => by
    rw [fieldsAreConcrete, Bool.and_eq_true, Bool.and_eq_true] at h
    obtain ⟨value, hvalue⟩ := instantiate_of_concrete pattern h.1.2 bindings
    obtain ⟨members, hmembers⟩ := instantiateFields_of_concrete fields h.2 bindings
    refine ⟨Fields.set members key value, ?_⟩
    have hdefined : pattern ≠ .undefined := by simpa using h.1.1
    rw [instantiateFields, if_neg hdefined, hvalue, hmembers]
    rfl
end

/-- The named variables are bound, and not to `undefined`. -/
def BindsDefined (bindings : AtomPatternBindings) (names : List JsString) : Prop :=
  ∀ name ∈ names, ∃ bound, Fields.get? bindings name = some bound ∧ bound ≠ .undefined

theorem instantiate_commitment (h : isCfcFieldCommitment pattern = true) :
    instantiateAtomPattern pattern bindings = some pattern := by
  obtain ⟨hnone, hwell, _⟩ := commitment_has_no_var h
  obtain ⟨digest, rfl⟩ := isCfcFieldCommitment_iff.1 h
  rw [fieldCommitment] at hnone hwell
  rw [fieldCommitment, instantiateAtomPattern, hnone, hwell]
  simp [instantiateFields, instantiateAtomPattern, Fields.set]

/-- Where a pattern stands over a value, it is instantiated part by part, or as it is. -/
theorem instantiate_of_guarded {byParts : Option Members}
    (h : occurrencesGuarded hashStringOf pattern value byParts = some found)
    (hname : ∀ name, atomVarPlaceholder? pattern = some name →
      ∃ value, instantiateAtomPattern pattern bindings = some value)
    (hparts : atomVarPlaceholder? pattern = none → isMalformedVarBearingRecord pattern = false →
      byParts = some found → ∃ value, instantiateAtomPattern pattern bindings = some value) :
    ∃ value, instantiateAtomPattern pattern bindings = some value := by
  rw [occurrencesGuarded] at h
  split at h
  · cases h
  split at h
  · rename_i name hvar
    exact hname name hvar
  rename_i hvar
  split at h
  · cases h
  rename_i hformed
  split at h
  · rename_i hmarker
    exact ⟨pattern, instantiate_commitment hmarker⟩
  split at h
  · split at h
    · rename_i hconcrete
      rw [Bool.and_eq_true] at hconcrete
      exact instantiate_of_concrete pattern hconcrete.1 bindings
    · cases h
  · exact hparts hvar (by simpa using hformed) h

theorem instantiate_of_placeholder {name : JsString}
    (hname : atomVarPlaceholder? (.record fields) = some name)
    (hbound : BindsDefined bindings (patternVars (.record fields))) :
    ∃ value, instantiateAtomPattern (.record fields) bindings = some value := by
  rw [patternVars, hname] at hbound
  obtain ⟨bound, hget, hdefined⟩ := hbound name List.mem_cons_self
  refine ⟨bound, ?_⟩
  rw [instantiateAtomPattern, hname]
  exact Option.filter_eq_some_iff.2 ⟨hget, by simpa using hdefined⟩

mutual
theorem instantiate_of_occurrences : (pattern : AtomPattern) → (value : FabricValue) →
    (found : Members) → occurrences hashStringOf pattern value = some found →
    (bindings : AtomPatternBindings) → BindsDefined bindings (patternVars pattern) →
    ∃ value, instantiateAtomPattern pattern bindings = some value
  | .array slots, value, found, h, bindings, hbound => by
    rw [occurrences] at h
    refine instantiate_of_guarded h (fun name hname => ?_) fun _ _ hparts => ?_
    · cases (atomVarPlaceholder?_eq_some.1 hname).1
    · cases hvalues : arraySlots? value with
      | none => rw [hvalues] at hparts; cases hparts
      | some values =>
        rw [hvalues] at hparts
        dsimp only at hparts
        split at hparts
        · rename_i hlength
          obtain ⟨result, hresult⟩ :=
            instantiateSlots_of_occurrences slots values hlength found hparts bindings hbound
          exact ⟨.array result, by rw [instantiateAtomPattern, hresult]; rfl⟩
        · cases hparts
  | .record fields, value, found, h, bindings, hbound => by
    rw [occurrences] at h
    refine instantiate_of_guarded h (fun name hname => instantiate_of_placeholder hname hbound)
      fun hnone hwell hparts => ?_
    rw [patternVars, hnone] at hbound
    cases hmembers : objectMembers? value with
    | none => rw [hmembers] at hparts; cases hparts
    | some members =>
      rw [hmembers] at hparts
      obtain ⟨result, hresult⟩ :=
        instantiateFields_of_occurrences fields members found hparts bindings hbound
      exact ⟨.record result, by rw [instantiateAtomPattern, hnone, hwell, hresult]; rfl⟩
  | .undefined, _, _, _, _, _ => ⟨_, rfl⟩
  | .null, _, _, _, _, _ => ⟨_, rfl⟩
  | .bool _, _, _, _, _, _ => ⟨_, rfl⟩
  | .number _, _, _, _, _, _ => ⟨_, rfl⟩
  | .string _, _, _, _, _, _ => ⟨_, rfl⟩
  | .bigint _, _, _, _, _, _ => ⟨_, rfl⟩
  | .symbol _, _, _, _, _, _ => ⟨_, rfl⟩
  | .special _ _, _, _, _, _, _ => ⟨_, rfl⟩

theorem instantiateSlots_of_occurrences : (slots : List (Option AtomPattern)) →
    (values : List (Option FabricValue)) → values.length = slots.length → (found : Members) →
    slotOccurrences hashStringOf slots values = some found → (bindings : AtomPatternBindings) →
    BindsDefined bindings (slotVars slots) → ∃ result, instantiateSlots slots bindings = some result
  | [], _, _, _, _, _, _ => ⟨[], rfl⟩
  | none :: slots, [], hlength, _, _, _, _ => by cases hlength
  | some pattern :: slots, [], hlength, _, _, _, _ => by cases hlength
  | none :: slots, value :: values, hlength, found, h, bindings, hbound => by
    rw [slotOccurrences] at h
    obtain ⟨_, _, hmap⟩ := Option.bind_eq_some_iff.1 h
    obtain ⟨rest, hrest, _⟩ := Option.map_eq_some_iff.1 hmap
    obtain ⟨result, hresult⟩ := instantiateSlots_of_occurrences slots values (Nat.succ.inj hlength)
      rest hrest bindings hbound
    exact ⟨_, by rw [instantiateSlots, hresult]; rfl⟩
  | some pattern :: slots, value :: values, hlength, found, h, bindings, hbound => by
    rw [slotOccurrences] at h
    rw [slotVars] at hbound
    obtain ⟨first, hfirst, hmap⟩ := Option.bind_eq_some_iff.1 h
    obtain ⟨rest, hrest, _⟩ := Option.map_eq_some_iff.1 hmap
    obtain ⟨here, hhere⟩ := instantiate_of_occurrences pattern _ first hfirst bindings
      fun name hname => hbound name (List.mem_append_left _ hname)
    obtain ⟨result, hresult⟩ := instantiateSlots_of_occurrences slots values (Nat.succ.inj hlength)
      rest hrest bindings fun name hname => hbound name (List.mem_append_right _ hname)
    exact ⟨some here :: result, by rw [instantiateSlots, hhere, hresult]; rfl⟩

theorem instantiateFields_of_occurrences : (fields members found : Members) →
    fieldOccurrences hashStringOf fields members = some found → (bindings : AtomPatternBindings) →
    BindsDefined bindings (fieldVars fields) →
    ∃ result, instantiateFields fields bindings = some result
  | [], _, _, _, _, _ => ⟨[], rfl⟩
  | (key, pattern) :: fields, members, found, h, bindings, hbound => by
    rw [fieldOccurrences] at h
    rw [fieldVars] at hbound
    rw [instantiateFields]
    cases hget : Fields.get? members key with
    | none =>
      rw [hget] at h
      dsimp only at h
      split at h
      · rw [if_pos ‹_›] at hbound
        rw [if_pos ‹_›]
        exact instantiateFields_of_occurrences fields members found h bindings hbound
      · cases h
    | some value =>
      rw [hget] at h
      dsimp only at h
      split at h
      · cases h
      · rw [if_neg ‹_›] at hbound
        rw [if_neg ‹_›]
        obtain ⟨first, hfirst, hmap⟩ := Option.bind_eq_some_iff.1 h
        obtain ⟨rest, hrest, _⟩ := Option.map_eq_some_iff.1 hmap
        obtain ⟨here, hhere⟩ := instantiate_of_occurrences pattern value first hfirst bindings
          fun name hname => hbound name (List.mem_append_left _ hname)
        obtain ⟨result, hresult⟩ := instantiateFields_of_occurrences fields members rest hrest
          bindings fun name hname => hbound name (List.mem_append_right _ hname)
        exact ⟨Fields.set result key here, by rw [hhere, hresult]; rfl⟩
end

theorem instantiate_of_mem {members : Members}
    (h : instantiateFields fields bindings = some members) {field : JsString × AtomPattern}
    (hmem : field ∈ fields) (hdefined : field.2 ≠ .undefined) :
    ∃ value, instantiateAtomPattern field.2 bindings = some value := by
  induction fields generalizing members with
  | nil => cases hmem
  | cons head fields ih =>
    obtain ⟨key, pattern⟩ := head
    rw [instantiateFields] at h
    split at h
    · rename_i hundefined
      cases hmem with
      | head => exact absurd hundefined hdefined
      | tail _ hmem => exact ih h hmem
    · split at h
      · rename_i value hvalue
        obtain ⟨rest, hrest, _⟩ := Option.map_eq_some_iff.1 h
        cases hmem with
        | head => exact ⟨value, hvalue⟩
        | tail _ hmem => exact ih hrest hmem
      · cases h

theorem filter_defined (h : pattern ≠ .undefined) :
    (some pattern).filter (· ≠ .undefined) = some pattern := by
  rw [Option.filter_some, if_pos (by simpa using h)]

/-- What an instantiated record holds under each key. -/
theorem get?_instantiateFields {members : Members}
    (hkeys : (fields.map (·.1)).Nodup) (h : instantiateFields fields bindings = some members)
    (key : JsString) : Fields.get? members key =
      ((Fields.get? fields key).filter (· ≠ .undefined)).bind
    (instantiateAtomPattern · bindings) := by
  induction fields generalizing members with
  | nil => cases h; rfl
  | cons head fields ih =>
    obtain ⟨name, pattern⟩ := head
    rw [List.map_cons, List.nodup_cons] at hkeys
    rw [instantiateFields] at h
    rw [Fields.get?_cons]
    split at h
    · rename_i hundefined
      rw [ih hkeys.2 h]
      by_cases hname : name = key
      · subst hname
        rw [if_pos rfl, Fields.get?_eq_none_iff.2 hkeys.1, hundefined]
        rfl
      · rw [if_neg hname]
    · rename_i hdefined
      split at h
      · rename_i value hvalue
        obtain ⟨rest, hrest, rfl⟩ := Option.map_eq_some_iff.1 h
        rw [Fields.get?_set, ih hkeys.2 hrest]
        by_cases hname : name = key
        · rw [if_pos hname, if_pos hname, filter_defined hdefined, Option.bind_some, hvalue]
        · rw [if_neg hname, if_neg hname]
      · cases h

theorem string_of_instantiate
    {s : JsString} (h : instantiateAtomPattern pattern bindings = some (.string s)) :
    pattern = .string s ∨ (atomVarPlaceholder? pattern).isSome = true := by
  cases pattern with
  | array slots =>
    rw [instantiateAtomPattern] at h
    obtain ⟨_, _, heq⟩ := Option.map_eq_some_iff.1 h
    cases heq
  | record fields =>
    rw [instantiateAtomPattern] at h
    split at h
    · rename_i name hname
      exact .inr (by rw [hname]; rfl)
    · split at h
      · cases h
      · obtain ⟨_, _, heq⟩ := Option.map_eq_some_iff.1 h
        cases heq
  | string _ =>
    cases h
    exact .inl rfl
  | _ => cases h

theorem eq_singleton_of_nodup (hkeys : (fields.map (·.1)).Nodup)
    {field : JsString × FabricValue} (hmem : field ∈ fields)
    (hall : ∀ other ∈ fields, other.1 = field.1) : fields = [field] := by
  cases fields with
  | nil => cases hmem
  | cons head rest =>
    cases rest with
    | nil => rw [List.mem_singleton.1 hmem]
    | cons second rest =>
      have hfirst := hall head List.mem_cons_self
      have hsecond := hall second (List.mem_cons_of_mem _ List.mem_cons_self)
      simp [hfirst, hsecond] at hkeys

/-- A regular record that is no commitment does not become one. -/
theorem no_commitment_of_regular {members : Members}
    (hkeys : (fields.map (·.1)).Nodup) (hregular : becomesCommitment fields = false)
    (hnone : isCfcFieldCommitment (.record fields) = false)
    (h : instantiateFields fields bindings = some members) :
    isCfcFieldCommitment (.record members) = false := by
  rw [← Bool.not_eq_true, isCfcFieldCommitment_iff]
  rintro ⟨digest, heq⟩
  have hget := get?_instantiateFields hkeys h
  rw [FabricValue.record.inj heq] at hget
  have hdigest := hget "digestOf"
  rw [Fields.get?_cons, if_pos rfl] at hdigest
  obtain ⟨pattern, hpattern, hvalue⟩ := Option.bind_eq_some_iff.1 hdigest.symm
  obtain ⟨hfield, hdefined⟩ := Option.filter_eq_some_iff.1 hpattern
  have hdefined' : pattern ≠ .undefined := by simpa using hdefined
  have hmem : (("digestOf" : JsString), pattern) ∈ definedFields fields :=
    List.mem_filter.2 ⟨Fields.mem_of_get? hfield, by simpa using hdefined'⟩
  have hsingle : definedFields fields = ([("digestOf", pattern)] : Members) := by
    have hsub : ((definedFields fields).map (·.1)).Nodup :=
      hkeys.sublist (List.filter_sublist.map _)
    refine eq_singleton_of_nodup hsub hmem fun other hother => ?_
    obtain ⟨hotherMem, hotherDefined⟩ := List.mem_filter.1 hother
    obtain ⟨value, hinstance⟩ := instantiate_of_mem h hotherMem (by simpa using hotherDefined)
    have hkey := hget other.1
    rw [get?_of_mem hkeys hotherMem, Option.filter_some, if_pos hotherDefined, Option.bind_some,
      hinstance, Fields.get?_cons] at hkey
    split at hkey
    · rename_i heq
      exact heq.symm
    · cases hkey
  rw [becomesCommitment, hnone, hsingle] at hregular
  cases string_of_instantiate hvalue with
  | inl hstring =>
    subst hstring
    simp at hregular
  | inr hvar =>
    cases pattern with
    | string s => simp at hregular
    | _ => simp [hvar] at hregular

/-- A variable with what it is bound to. -/
def boundPart (bindings : AtomPatternBindings) (name : JsString) : JsString × FabricValue :=
  (name, (Fields.get? bindings name).getD .undefined)

/-- No variable is bound to a malformed record with a `var`. -/
def WellFormedBindings (bindings : AtomPatternBindings) : Prop :=
  ∀ name bound, Fields.get? bindings name = some bound → isMalformedVarBearingRecord bound = false

theorem leafOccurrences_self (hleaf : isLeaf pattern = true) :
    leafOccurrences hashStringOf pattern pattern = some [] := by
  rw [leafOccurrences, occurrencesGuarded]
  cases pattern with
  | array _ => cases hleaf
  | record _ => cases hleaf
  | _ => simp [isMalformedVarBearingRecord, atomVarPlaceholder?, isCfcFieldCommitment,
      fieldCommitment?, sameValue_refl]

theorem length_instantiateSlots {slots : List (Option AtomPattern)}
    {values : List (Option FabricValue)}
    (h : instantiateSlots slots bindings = some values) : values.length = slots.length := by
  induction slots generalizing values with
  | nil => cases h; rfl
  | cons slot slots ih =>
    cases slot with
    | none =>
      rw [instantiateSlots] at h
      obtain ⟨rest, hrest, rfl⟩ := Option.map_eq_some_iff.1 h
      rw [List.length_cons, List.length_cons, ih hrest]
    | some pattern =>
      rw [instantiateSlots] at h
      split at h
      · obtain ⟨rest, hrest, rfl⟩ := Option.map_eq_some_iff.1 h
        rw [List.length_cons, List.length_cons, ih hrest]
      · cases h

/-- A record pattern that is neither a placeholder nor malformed has no `var`. -/
theorem no_var_of_wellFormed (hvar : atomVarPlaceholder? (.record fields) = none)
    (hformed : isMalformedVarBearingRecord (.record fields) = false) :
    Fields.get? fields "var" = none := by
  rw [isMalformedVarBearingRecord, hvar, Option.isNone_none, Bool.and_true,
    Option.isSome_eq_false_iff, Option.isNone_iff_eq_none] at hformed
  exact hformed

mutual
/-- In an instantiated pattern each variable stands for what it is bound to. -/
theorem occurrences_instantiate : (pattern : AtomPattern) → (bindings : AtomPatternBindings) →
    WellFormedBindings bindings → isRegular pattern = true → (value : FabricValue) →
    instantiateAtomPattern pattern bindings = some value →
    occurrences hashStringOf pattern value =
      some ((patternVars pattern).map (boundPart bindings))
  | .array slots, bindings, hwell, hregular, value, h => by
    rw [instantiateAtomPattern] at h
    obtain ⟨values, hvalues, rfl⟩ := Option.map_eq_some_iff.1 h
    have hparts := slotOccurrences_instantiate slots bindings hwell hregular values hvalues
    rw [occurrences, occurrencesGuarded, patternVars]
    simp [isMalformedVarBearingRecord, atomVarPlaceholder?, isCfcFieldCommitment, fieldCommitment?,
      arraySlots?, length_instantiateSlots hvalues, hparts]
  | .record fields, bindings, hwell, hregular, value, h => by
    rw [isRegular, Bool.and_eq_true, Bool.and_eq_true, decide_eq_true_iff] at hregular
    rw [instantiateAtomPattern] at h
    rw [occurrences, occurrencesGuarded, patternVars]
    cases hvar : atomVarPlaceholder? (.record fields) with
    | some name =>
      rw [hvar] at h
      obtain ⟨hbound, _⟩ := Option.filter_eq_some_iff.1 h
      rw [hwell name value hbound, if_neg (by decide), List.map_cons, List.map_nil, boundPart,
        hbound]
      rfl
    | none =>
      rw [hvar] at h
      dsimp only at h
      split at h
      · cases h
      rename_i hformed
      have hformed' : isMalformedVarBearingRecord (.record fields) = false := by simpa using hformed
      obtain ⟨members, hmembers, rfl⟩ := Option.map_eq_some_iff.1 h
      have hget := get?_instantiateFields hregular.1.1 hmembers
      have hfree : Fields.get? members "var" = none := by
        rw [hget, no_var_of_wellFormed hvar hformed']
        rfl
      rw [wellFormed_of_no_var hfree, if_neg (by decide), hformed', if_neg (by decide)]
      cases hmarker : isCfcFieldCommitment (.record fields) with
      | true =>
        obtain ⟨digest, hdigest⟩ := isCfcFieldCommitment_iff.1 hmarker
        have hfields := FabricValue.record.inj hdigest
        subst hfields
        have hself : members = ([("digestOf", .string digest)] : Members) := by
          simpa [instantiateFields, instantiateAtomPattern, Fields.set] using hmembers.symm
        rw [hself, if_pos rfl, if_pos (aware_of_same (sameValue_refl _))]
        rfl
      | false =>
        have hplain := no_commitment_of_regular hregular.1.1 (by simpa using hregular.1.2) hmarker
          hmembers
        rw [if_neg (by decide), hplain, if_neg (by decide)]
        refine fieldOccurrences_instantiate fields bindings hwell hregular.2 members
          fun field hfield => ⟨fun hundefined => ?_, fun hdefined => ?_⟩
        · rw [hget, get?_of_mem hregular.1.1 hfield, hundefined]
          rfl
        · obtain ⟨value, hvalue⟩ := instantiate_of_mem hmembers hfield hdefined
          refine ⟨value, hvalue, ?_⟩
          rw [hget, get?_of_mem hregular.1.1 hfield, filter_defined hdefined, Option.bind_some,
            hvalue]
  | .undefined, _, _, _, _, h => by cases h; exact leafOccurrences_self rfl
  | .null, _, _, _, _, h => by cases h; exact leafOccurrences_self rfl
  | .bool _, _, _, _, _, h => by cases h; exact leafOccurrences_self rfl
  | .number _, _, _, _, _, h => by cases h; exact leafOccurrences_self rfl
  | .string _, _, _, _, _, h => by cases h; exact leafOccurrences_self rfl
  | .bigint _, _, _, _, _, h => by cases h; exact leafOccurrences_self rfl
  | .symbol _, _, _, _, _, h => by cases h; exact leafOccurrences_self rfl
  | .special _ _, _, _, _, _, h => by cases h; exact leafOccurrences_self rfl

theorem slotOccurrences_instantiate : (slots : List (Option AtomPattern)) →
    (bindings : AtomPatternBindings) → WellFormedBindings bindings →
    slotsAreRegular slots = true → (values : List (Option FabricValue)) →
    instantiateSlots slots bindings = some values →
    slotOccurrences hashStringOf slots values = some ((slotVars slots).map (boundPart bindings))
  | [], bindings, _, _, values, h => by cases h; rfl
  | none :: slots, bindings, hwell, hregular, values, h => by
    rw [instantiateSlots] at h
    obtain ⟨rest, hrest, rfl⟩ := Option.map_eq_some_iff.1 h
    rw [slotOccurrences, Option.getD_some, leafOccurrences_self rfl, Option.bind_some,
      slotOccurrences_instantiate slots bindings hwell hregular rest hrest]
    rfl
  | some pattern :: slots, bindings, hwell, hregular, values, h => by
    rw [slotsAreRegular, Bool.and_eq_true] at hregular
    rw [instantiateSlots] at h
    split at h
    · rename_i value hvalue
      obtain ⟨rest, hrest, rfl⟩ := Option.map_eq_some_iff.1 h
      rw [slotOccurrences, Option.getD_some,
        occurrences_instantiate pattern bindings hwell hregular.1 value hvalue, Option.bind_some,
        slotOccurrences_instantiate slots bindings hwell hregular.2 rest hrest, slotVars,
        List.map_append]
      rfl
    · cases h

theorem fieldOccurrences_instantiate : (fields : Members) → (bindings : AtomPatternBindings) →
    WellFormedBindings bindings → fieldsAreRegular fields = true → (members : Members) →
    (∀ field ∈ fields, (field.2 = .undefined → Fields.get? members field.1 = none) ∧
      (field.2 ≠ .undefined → ∃ value, instantiateAtomPattern field.2 bindings = some value ∧
        Fields.get? members field.1 = some value)) →
    fieldOccurrences hashStringOf fields members = some ((fieldVars fields).map (boundPart bindings))
  | [], _, _, _, _, _ => rfl
  | (key, pattern) :: fields, bindings, hwell, hregular, members, hmembers => by
    rw [fieldsAreRegular, Bool.and_eq_true] at hregular
    have hhead := hmembers (key, pattern) List.mem_cons_self
    have hrest := fieldOccurrences_instantiate fields bindings hwell hregular.2 members
      fun field hfield => hmembers field (List.mem_cons_of_mem _ hfield)
    rw [fieldOccurrences, fieldVars]
    by_cases hundefined : pattern = .undefined
    · rw [hhead.1 hundefined]
      dsimp only
      rw [if_pos hundefined, if_pos hundefined]
      exact hrest
    · obtain ⟨value, hvalue, hget⟩ := hhead.2 hundefined
      rw [hget]
      dsimp only
      rw [if_neg hundefined, if_neg hundefined,
        occurrences_instantiate pattern bindings hwell hregular.1 value hvalue, Option.bind_some,
        hrest, List.map_append]
      rfl
end

theorem unify_boundParts {parts : Members} {extended : AtomPatternBindings}
    (h : unify hashStringOf parts bindings = some extended) :
    unify hashStringOf (parts.map fun part => boundPart extended part.1) bindings =
      some extended := by
  induction parts generalizing bindings with
  | nil => exact h
  | cons part parts ih =>
    obtain ⟨name, value⟩ := part
    have hgrows := (unify_sound h).1
    rw [unify] at h
    rw [List.map_cons, boundPart, unify]
    cases hbound : Fields.get? bindings name with
    | some bound =>
      rw [hbound] at h
      dsimp only at h ⊢
      split at h
      · rw [hgrows name bound hbound, Option.getD_some,
          if_pos (aware_of_same (sameValue_refl bound))]
        exact ih h
      · cases h
    | none =>
      rw [hbound] at h
      dsimp only at h ⊢
      split at h
      · cases h
      · rename_i hplain
        have hset : Fields.get? extended name = some value :=
          (unify_sound h).1 name value (by rw [Fields.get?_set, if_pos rfl])
        rw [hset, Option.getD_some, if_neg hplain]
        exact ih h

/-- Bindings to atoms, none of them a malformed record with a `var`. -/
structure AtomBindings (bindings : AtomPatternBindings) : Prop where
  atom : ∀ name bound, Fields.get? bindings name = some bound → isCfcAtom bound = true
  wellFormed : WellFormedBindings bindings

theorem match_binds_atoms {atom : FabricValue}
    {extended : AtomPatternBindings} (hatom : isCfcAtom atom = true)
    (hbindings : AtomBindings bindings)
    (h : matchAtomPattern hashStringOf pattern atom bindings = some extended) :
    AtomBindings extended := by
  rw [matchAtomPattern_eq] at h
  obtain ⟨parts, hparts, hunify⟩ := Option.bind_eq_some_iff.1 h
  have hstands := occurrences_of isCfcAtom_partClosed pattern atom hatom parts hparts
  have hboth := unify_from (P := fun v => isCfcAtom v = true ∧ isMalformedVarBearingRecord v = false)
    (fun name bound hget => ⟨hbindings.atom name bound hget, hbindings.wellFormed name bound hget⟩)
    hstands hunify
  exact ⟨fun name bound hget => (hboth name bound hget).1,
    fun name bound hget => (hboth name bound hget).2⟩

/-- A regular pattern that has matched an atom comes, under the result, to a value that it matches
again with the same result. -/
theorem match_instantiated {atom : FabricValue}
    {extended : AtomPatternBindings} (hregular : isRegular pattern = true)
    (hatom : isCfcAtom atom = true) (hbindings : AtomBindings bindings)
    (h : matchAtomPattern hashStringOf pattern atom bindings = some extended) :
    ∃ value, instantiateAtomPattern pattern extended = some value ∧
      matchAtomPattern hashStringOf pattern value bindings = some extended := by
  have hextended := match_binds_atoms hatom hbindings h
  rw [matchAtomPattern_eq] at h
  obtain ⟨parts, hparts, hunify⟩ := Option.bind_eq_some_iff.1 h
  have hvars := occurrences_vars pattern atom parts hparts
  have hbound : BindsDefined extended (patternVars pattern) := by
    intro name hname
    rw [← hvars] at hname
    obtain ⟨part, hpart, rfl⟩ := List.mem_map.1 hname
    obtain ⟨bound, hget, _⟩ := (unify_sound hunify).2.1 part.1 part.2 hpart
    refine ⟨bound, hget, ?_⟩
    rintro rfl
    have := hextended.atom _ _ hget
    cases this
  obtain ⟨value, hvalue⟩ := instantiate_of_occurrences pattern atom parts hparts extended hbound
  refine ⟨value, hvalue, ?_⟩
  rw [matchAtomPattern_eq, occurrences_instantiate pattern extended hextended.wellFormed hregular
    value hvalue, ← hvars, List.map_map]
  exact unify_boundParts hunify

end
end Cfc
