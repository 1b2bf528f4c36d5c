import CommonFabric.PatternInstantiation
import CommonFabric.ClauseSubsumption

/-!
# What a matched pattern says of the atom

The pattern, instantiated with what a match has bound, equals the atom on everything it names. So
matching is unification, up to the members that a record pattern leaves open.
-/

namespace Cfc

section

variable (hashStringOf : FabricValue → JsString)

/-- The second value equals the first, but for members of records that the first does not name. -/
inductive Covers : FabricValue → FabricValue → Prop
  | equal {w v : FabricValue} (h : commitmentAwareEquals hashStringOf w v = true) : Covers w v
  | array {s t : List (Option FabricValue)} (hlength : t.length = s.length)
      (h : ∀ (i : Nat) (x : FabricValue) (y : Option FabricValue), s[i]? = some (some x) →
        t[i]? = some y → Covers x (y.getD .undefined)) : Covers (.array s) (.array t)
  | record {f members : Members} {v : FabricValue} (hobject : objectMembers? v = some members)
      (hnamed : ∀ key, (Fields.get? f key).isSome → (Fields.get? members key).isSome)
      (h : ∀ key x y, Fields.get? f key = some x → Fields.get? members key = some y → Covers x y) :
      Covers (.record f) v

variable {hashStringOf}

theorem instantiateFields_ordered {fields members : Members} {bindings : AtomPatternBindings}
    (h : instantiateFields fields bindings = some members) : Fields.Ordered members := by
  induction fields generalizing members with
  | nil => cases h; exact List.Pairwise.nil
  | cons head fields ih =>
    obtain ⟨key, pattern⟩ := head
    rw [instantiateFields] at h
    split at h
    · exact ih h
    · split at h
      · rename_i value _
        obtain ⟨rest, hrest, rfl⟩ := Option.map_eq_some_iff.1 h
        exact (ih hrest).set key value
      · cases h

mutual
/-- A pattern without variables is instantiated to itself, up to the order of members. -/
theorem instantiate_concrete_same : (pattern : AtomPattern) → patternIsConcrete pattern = true →
    isDense pattern = true → (bindings : AtomPatternBindings) → (value : FabricValue) →
    instantiateAtomPattern pattern bindings = some value →
    sameValue pattern value = true ∧ isDense value = true
  | .array slots, hconcrete, hdense, bindings, value, h => by
    rw [instantiateAtomPattern] at h
    obtain ⟨values, hvalues, rfl⟩ := Option.map_eq_some_iff.1 h
    obtain ⟨hsame, hvaluesDense⟩ :=
      instantiateSlots_concrete_same slots hconcrete hdense bindings values hvalues
    exact ⟨sameValue_array.2 hsame, hvaluesDense⟩
  | .record fields, hconcrete, hdense, bindings, value, h => by
    rw [patternIsConcrete, Bool.and_eq_true, Option.isNone_iff_eq_none] at hconcrete
    rw [instantiateAtomPattern, placeholder_of_no_var hconcrete.1,
      wellFormed_of_no_var hconcrete.1] at h
    obtain ⟨members, hmembers, rfl⟩ := Option.map_eq_some_iff.1 h
    obtain ⟨hkeys, _⟩ := isDense_record.1 hdense
    rw [isDense, Bool.and_eq_true] at hdense
    have hget := get?_instantiateFields hkeys hmembers
    have hfields := instantiateFields_concrete_same fields hconcrete.2 hdense.2 bindings
    have hheld : ∀ key, Option.Rel (fun pattern value => sameValue pattern value = true ∧
        isDense value = true) (Fields.get? fields key) (Fields.get? members key) := by
      intro key
      rw [hget]
      cases hfield : Fields.get? fields key with
      | none => exact .none
      | some pattern =>
        have hmem := Fields.mem_of_get? hfield
        obtain ⟨hdefined, hsame⟩ := hfields (key, pattern) hmem
        obtain ⟨value, hvalue⟩ := instantiate_of_mem hmembers hmem hdefined
        rw [filter_defined hdefined, Option.bind_some, hvalue]
        exact .some (hsame value hvalue)
    constructor
    · exact sameValue_record.2 fun key => relMono (fun _ _ h => h.1) (hheld key)
    · have hnodup := (instantiateFields_ordered hmembers).nodup
      rw [isDense_record]
      refine ⟨hnodup, fun field hfield => ?_⟩
      have hrel := hheld field.1
      rw [get?_of_mem hnodup hfield] at hrel
      cases hfield : Fields.get? fields field.1 with
      | none => rw [hfield] at hrel; cases hrel
      | some pattern =>
        rw [hfield, Option.rel_some_some] at hrel
        exact hrel.2
  | .undefined, _, _, _, _, h => by cases h; exact ⟨sameValue_refl _, rfl⟩
  | .null, _, _, _, _, h => by cases h; exact ⟨sameValue_refl _, rfl⟩
  | .bool _, _, _, _, _, h => by cases h; exact ⟨sameValue_refl _, rfl⟩
  | .number _, _, _, _, _, h => by cases h; exact ⟨sameValue_refl _, rfl⟩
  | .string _, _, _, _, _, h => by cases h; exact ⟨sameValue_refl _, rfl⟩
  | .bigint _, _, _, _, _, h => by cases h; exact ⟨sameValue_refl _, rfl⟩
  | .symbol _, _, _, _, _, h => by cases h; exact ⟨sameValue_refl _, rfl⟩
  | .special _ _, _, _, _, _, h => by cases h; exact ⟨sameValue_refl _, rfl⟩

theorem instantiateSlots_concrete_same : (slots : List (Option AtomPattern)) →
    slotsAreConcrete slots = true → slotsAreDense slots = true →
    (bindings : AtomPatternBindings) → (values : List (Option FabricValue)) →
    instantiateSlots slots bindings = some values →
    slots.map (Option.map keySorted) = values.map (Option.map keySorted) ∧
      slotsAreDense values = true
  | [], _, _, _, values, h => by cases h; exact ⟨rfl, rfl⟩
  | none :: slots, _, hdense, _, _, _ => by cases hdense
  | some pattern :: slots, hconcrete, hdense, bindings, values, h => by
    rw [slotsAreConcrete, Bool.and_eq_true] at hconcrete
    rw [slotsAreDense, Bool.and_eq_true] at hdense
    rw [instantiateSlots] at h
    split at h
    · rename_i value hvalue
      obtain ⟨rest, hrest, rfl⟩ := Option.map_eq_some_iff.1 h
      obtain ⟨hsame, hvalueDense⟩ :=
        instantiate_concrete_same pattern hconcrete.1 hdense.1 bindings value hvalue
      obtain ⟨hsames, hrestDense⟩ :=
        instantiateSlots_concrete_same slots hconcrete.2 hdense.2 bindings rest hrest
      constructor
      · rw [List.map_cons, List.map_cons, hsames, Option.map_some, Option.map_some,
          sameValue_iff.1 hsame]
      · rw [slotsAreDense, hvalueDense, hrestDense]
        rfl
    · cases h

theorem instantiateFields_concrete_same : (fields : Members) →
    fieldsAreConcrete fields = true → fieldsAreDense fields = true →
    (bindings : AtomPatternBindings) → ∀ field ∈ fields, field.2 ≠ .undefined ∧
      ∀ value, instantiateAtomPattern field.2 bindings = some value →
        sameValue field.2 value = true ∧ isDense value = true
  | [], _, _, _ => fun field hfield => by cases hfield
  | (key, pattern) :: fields, hconcrete, hdense, bindings => by
    rw [fieldsAreConcrete, Bool.and_eq_true, Bool.and_eq_true] at hconcrete
    rw [fieldsAreDense, Bool.and_eq_true] at hdense
    intro field hfield
    cases hfield with
    | head =>
      exact ⟨by simpa using hconcrete.1.1, fun value hvalue =>
        instantiate_concrete_same pattern hconcrete.1.2 hdense.1 bindings value hvalue⟩
    | tail _ hfield =>
      exact instantiateFields_concrete_same fields hconcrete.2 hdense.2 bindings field hfield
end

theorem covers_of_guarded {pattern : AtomPattern} {value result : FabricValue}
    {byParts : Option Members} {found : Members} {bindings : AtomPatternBindings}
    (hdense : isDense pattern = true) (hvalue : isDense value = true)
    (hresult : instantiateAtomPattern pattern bindings = some result)
    (h : occurrencesGuarded hashStringOf pattern value byParts = some found)
    (hname : ∀ name, atomVarPlaceholder? pattern = some name → found = [(name, value)] →
      Covers hashStringOf result value)
    (hparts : atomVarPlaceholder? pattern = none → isMalformedVarBearingRecord pattern = false →
      byParts = some found → Covers hashStringOf result value) : Covers hashStringOf result value := by
  rw [occurrencesGuarded] at h
  split at h
  · cases h
  split at h
  · rename_i name hvar
    exact hname name hvar (Option.some.inj h).symm
  rename_i hvar
  split at h
  · cases h
  rename_i hformed
  split at h
  · rename_i hmarker
    split at h
    · rename_i hequal
      rw [instantiate_commitment hmarker, Option.some.injEq] at hresult
      exact .equal (hresult ▸ hequal)
    · cases h
  split at h
  · split at h
    · rename_i hboth
      rw [Bool.and_eq_true] at hboth
      obtain ⟨hsame, hresultDense⟩ :=
        instantiate_concrete_same pattern hboth.1 hdense bindings result hresult
      exact .equal (aware_of_same_left hdense hresultDense hvalue hsame hboth.2)
    · cases h
  · exact hparts hvar (by simpa using hformed) h

theorem covers_of_leaf {pattern : AtomPattern} {value result : FabricValue} {found : Members}
    {bindings : AtomPatternBindings} (hleaf : isLeaf pattern = true) (hvalue : isDense value = true)
    (hresult : instantiateAtomPattern pattern bindings = some result)
    (h : leafOccurrences hashStringOf pattern value = some found) :
    Covers hashStringOf result value := by
  have hself : instantiateAtomPattern pattern bindings = some pattern ∧ isDense pattern = true := by
    cases pattern with
    | array _ => cases hleaf
    | record _ => cases hleaf
    | _ => exact ⟨rfl, rfl⟩
  refine covers_of_guarded hself.2 hvalue hresult h (fun name hname _ => ?_) fun _ _ hparts => ?_
  · rw [(atomVarPlaceholder?_eq_some.1 hname).1] at hleaf
    cases hleaf
  · split at hparts
    · rename_i hsame
      rw [hself.1, Option.some.injEq] at hresult
      exact .equal (aware_of_same (hresult ▸ hsame))
    · cases hparts

theorem AgreesOn.append {extended : AtomPatternBindings} {xs ys : Members}
    (h : AgreesOn hashStringOf extended (xs ++ ys)) :
    AgreesOn hashStringOf extended xs ∧ AgreesOn hashStringOf extended ys :=
  ⟨fun name value hmem => h name value (List.mem_append_left _ hmem),
    fun name value hmem => h name value (List.mem_append_right _ hmem)⟩

theorem dense_slot_getD {values : List (Option FabricValue)} {value : Option FabricValue}
    (h : slotsAreDense (value :: values) = true) :
    isDense (value.getD .undefined) = true ∧ slotsAreDense values = true := by
  cases value with
  | none => cases h
  | some value =>
    rw [slotsAreDense, Bool.and_eq_true] at h
    exact h

mutual
/-- What agrees with a pattern makes of it a value that covers the atom. -/
theorem covers_of_agrees : (pattern : AtomPattern) → isDense pattern = true →
    (value : FabricValue) → isDense value = true → (found : Members) →
    occurrences hashStringOf pattern value = some found → (extended : AtomPatternBindings) →
    AgreesOn hashStringOf extended found → (result : FabricValue) →
    instantiateAtomPattern pattern extended = some result → Covers hashStringOf result value
  | .array slots, hdense, value, hvalue, found, h, extended, hagrees, result, hresult => by
    rw [occurrences] at h
    refine covers_of_guarded hdense hvalue hresult h (fun name hname _ => ?_) fun _ _ hparts => ?_
    · cases (atomVarPlaceholder?_eq_some.1 hname).1
    · rw [instantiateAtomPattern] at hresult
      obtain ⟨results, hresults, rfl⟩ := Option.map_eq_some_iff.1 hresult
      cases value with
      | array values =>
        dsimp only [arraySlots?] at hparts
        split at hparts
        · rename_i hlength
          exact .array (hlength.trans (length_instantiateSlots hresults).symm)
            (slotsCover_of_agrees slots hdense values hvalue hlength found hparts extended hagrees
              results hresults)
        · cases hparts
      | _ => cases hparts
  | .record fields, hdense, value, hvalue, found, h, extended, hagrees, result, hresult => by
    rw [occurrences] at h
    refine covers_of_guarded hdense hvalue hresult h (fun name hname hfound => ?_)
      fun hvar hformed hparts => ?_
    · subst hfound
      obtain ⟨bound, hbound, hequal⟩ := hagrees name value List.mem_cons_self
      rw [instantiateAtomPattern, hname] at hresult
      obtain ⟨hget, _⟩ := Option.filter_eq_some_iff.1 hresult
      rw [hbound, Option.some.injEq] at hget
      exact .equal (hget ▸ hequal)
    · rw [instantiateAtomPattern, hvar, hformed] at hresult
      obtain ⟨results, hresults, rfl⟩ := Option.map_eq_some_iff.1 hresult
      obtain ⟨hkeys, _⟩ := isDense_record.1 hdense
      rw [isDense, Bool.and_eq_true] at hdense
      have hget := get?_instantiateFields hkeys hresults
      have hmembers : ∀ members, (∀ key v, Fields.get? members key = some v → isDense v = true) →
          objectMembers? value = some members →
          fieldOccurrences hashStringOf fields members = some found →
          Covers hashStringOf (.record results) value := by
        intro members hmembersDense hobject hparts
        have hfields := fieldsCover_of_agrees fields hdense.2 members hmembersDense found hparts
          extended hagrees
        refine .record hobject (fun key hsome => ?_) fun key x y hx hy => ?_
        · obtain ⟨x, hx⟩ := Option.isSome_iff_exists.1 hsome
          rw [hget] at hx
          obtain ⟨pattern, hpattern, _⟩ := Option.bind_eq_some_iff.1 hx
          obtain ⟨hfield, hdefined⟩ := Option.filter_eq_some_iff.1 hpattern
          obtain ⟨y, hy, _⟩ := hfields (key, pattern) (Fields.mem_of_get? hfield)
            (by simpa using hdefined)
          exact Option.isSome_iff_exists.2 ⟨y, hy⟩
        · rw [hget] at hx
          obtain ⟨pattern, hpattern, hinstance⟩ := Option.bind_eq_some_iff.1 hx
          obtain ⟨hfield, hdefined⟩ := Option.filter_eq_some_iff.1 hpattern
          obtain ⟨y', hy', hcovers⟩ := hfields (key, pattern) (Fields.mem_of_get? hfield)
            (by simpa using hdefined)
          rw [hy, Option.some.injEq] at hy'
          subst hy'
          exact hcovers x hinstance
      cases value with
      | record members =>
        exact hmembers members (fun key v hget => isDense_member hvalue hget) rfl hparts
      | special tag state => exact hmembers [] (fun key v hget => by cases hget) rfl hparts
      | _ => cases hparts
  | .undefined, _, _, hvalue, _, h, _, _, _, hresult =>
    @covers_of_leaf hashStringOf .undefined _ _ _ _ rfl hvalue hresult h
  | .null, _, _, hvalue, _, h, _, _, _, hresult =>
    @covers_of_leaf hashStringOf .null _ _ _ _ rfl hvalue hresult h
  | .bool b, _, _, hvalue, _, h, _, _, _, hresult =>
    @covers_of_leaf hashStringOf (.bool b) _ _ _ _ rfl hvalue hresult h
  | .number n, _, _, hvalue, _, h, _, _, _, hresult =>
    @covers_of_leaf hashStringOf (.number n) _ _ _ _ rfl hvalue hresult h
  | .string s, _, _, hvalue, _, h, _, _, _, hresult =>
    @covers_of_leaf hashStringOf (.string s) _ _ _ _ rfl hvalue hresult h
  | .bigint i, _, _, hvalue, _, h, _, _, _, hresult =>
    @covers_of_leaf hashStringOf (.bigint i) _ _ _ _ rfl hvalue hresult h
  | .symbol k, _, _, hvalue, _, h, _, _, _, hresult =>
    @covers_of_leaf hashStringOf (.symbol k) _ _ _ _ rfl hvalue hresult h
  | .special t s, _, _, hvalue, _, h, _, _, _, hresult =>
    @covers_of_leaf hashStringOf (.special t s) _ _ _ _ rfl hvalue hresult h

theorem slotsCover_of_agrees : (slots : List (Option AtomPattern)) → slotsAreDense slots = true →
    (values : List (Option FabricValue)) → slotsAreDense values = true →
    values.length = slots.length → (found : Members) →
    slotOccurrences hashStringOf slots values = some found → (extended : AtomPatternBindings) →
    AgreesOn hashStringOf extended found → (results : List (Option FabricValue)) →
    instantiateSlots slots extended = some results →
    ∀ (i : Nat) (x : FabricValue) (y : Option FabricValue), results[i]? = some (some x) →
      values[i]? = some y → Covers hashStringOf x (y.getD .undefined)
  | [], _, _, _, _, _, _, _, _, results, hresults => by
    cases hresults
    intro i x y hx
    cases hx
  | none :: slots, hdense, _, _, _, _, _, _, _, _, _ => by cases hdense
  | some pattern :: slots, _, [], _, hlength, _, _, _, _, _, _ => by cases hlength
  | some pattern :: slots, hdense, value :: values, hvalues, hlength, found, h, extended, hagrees,
      results, hresults => by
    rw [slotsAreDense, Bool.and_eq_true] at hdense
    obtain ⟨hvalue, hrest⟩ := dense_slot_getD hvalues
    rw [slotOccurrences] at h
    obtain ⟨first, hfirst, hmap⟩ := Option.bind_eq_some_iff.1 h
    obtain ⟨rest, hoccur, rfl⟩ := Option.map_eq_some_iff.1 hmap
    rw [instantiateSlots] at hresults
    split at hresults
    · rename_i result hresult
      obtain ⟨others, hothers, rfl⟩ := Option.map_eq_some_iff.1 hresults
      have hhere := covers_of_agrees pattern hdense.1 _ hvalue first hfirst extended
        hagrees.append.1 result hresult
      have htail := slotsCover_of_agrees slots hdense.2 values hrest (Nat.succ.inj hlength) rest
        hoccur extended hagrees.append.2 others hothers
      intro i x y hx hy
      cases i with
      | zero =>
        cases hx
        cases hy
        exact hhere
      | succ i => exact htail i x y hx hy
    · cases hresults

theorem fieldsCover_of_agrees : (fields : Members) → fieldsAreDense fields = true →
    (members : Members) → (∀ key v, Fields.get? members key = some v → isDense v = true) →
    (found : Members) → fieldOccurrences hashStringOf fields members = some found →
    (extended : AtomPatternBindings) → AgreesOn hashStringOf extended found →
    ∀ field ∈ fields, field.2 ≠ .undefined → ∃ y, Fields.get? members field.1 = some y ∧
      ∀ x, instantiateAtomPattern field.2 extended = some x → Covers hashStringOf x y
  | [], _, _, _, _, _, _, _ => fun field hfield => by cases hfield
  | (key, pattern) :: fields, hdense, members, hmembers, found, h, extended, hagrees => by
    rw [fieldsAreDense, Bool.and_eq_true] at hdense
    rw [fieldOccurrences] at h
    intro field hfield hdefined
    cases hget : Fields.get? members key with
    | none =>
      rw [hget] at h
      dsimp only at h
      split at h
      · rename_i hundefined
        cases hfield with
        | head => exact absurd hundefined hdefined
        | tail _ hfield =>
          exact fieldsCover_of_agrees fields hdense.2 members hmembers found h extended hagrees field
            hfield hdefined
      · cases h
    | some value =>
      rw [hget] at h
      dsimp only at h
      split at h
      · cases h
      · obtain ⟨first, hfirst, hmap⟩ := Option.bind_eq_some_iff.1 h
        obtain ⟨rest, hoccur, rfl⟩ := Option.map_eq_some_iff.1 hmap
        cases hfield with
        | head =>
          exact ⟨value, hget, fun x hx => covers_of_agrees pattern hdense.1 value
            (hmembers key value hget) first hfirst extended hagrees.append.1 x hx⟩
        | tail _ hfield =>
          exact fieldsCover_of_agrees fields hdense.2 members hmembers rest hoccur extended
            hagrees.append.2 field hfield hdefined
end

end

/-- A pattern matches an atom exactly when some extension of the bindings agrees with it and takes
the first part that each new variable stands for; the instantiated pattern covers the atom and is
matched again; and a conjunction finds the joint matches, in any order of the atoms and, where
nothing is committed, of the patterns. -/
theorem atomPattern_unification (hashStringOf : FabricValue → JsString) :
    (∀ pattern atom bindings extended,
        matchAtomPattern hashStringOf pattern atom bindings = some extended →
        Grows bindings extended ∧ ∃ parts, occurrences hashStringOf pattern atom = some parts ∧
          AgreesOn hashStringOf extended parts ∧ TakesFirst bindings extended parts ∧
          BindsOnly bindings extended parts) ∧
      (∀ pattern atom bindings extended parts, Grows bindings extended →
        occurrences hashStringOf pattern atom = some parts →
        AgreesOn hashStringOf extended parts → TakesFirst bindings extended parts →
        ∃ found, matchAtomPattern hashStringOf pattern atom bindings = some found ∧
          Grows found extended) ∧
      (∀ pattern atom bindings extended, PlainValue atom → PlainBindings bindings →
        DenseBindings extended →
        DigestsDiffer hashStringOf (fieldsParts extended ++ parts atom) →
        Grows bindings extended → Agrees hashStringOf extended pattern atom →
        ∃ found, matchAtomPattern hashStringOf pattern atom bindings = some found) ∧
      (∀ pattern atom extended value, isDense pattern = true → isDense atom = true →
        Agrees hashStringOf extended pattern atom →
        instantiateAtomPattern pattern extended = some value → Covers hashStringOf value atom) ∧
      (∀ pattern atom bindings extended, isRegular pattern = true → isCfcAtom atom = true →
        AtomBindings bindings →
        matchAtomPattern hashStringOf pattern atom bindings = some extended →
        ∃ value, instantiateAtomPattern pattern extended = some value ∧
          matchAtomPattern hashStringOf pattern value bindings = some extended) ∧
      (∀ patterns atoms bindings extended,
        extended ∈ matchAtomPatternConjunction hashStringOf patterns atoms bindings →
        Grows bindings extended ∧ ∃ parts, JointParts hashStringOf atoms patterns parts ∧
          AgreesOn hashStringOf extended parts ∧ TakesFirst bindings extended parts ∧
          BindsOnly bindings extended parts) ∧
      (∀ patterns atoms bindings extended parts, Grows bindings extended →
        JointParts hashStringOf atoms patterns parts → AgreesOn hashStringOf extended parts →
        TakesFirst bindings extended parts →
        ∃ found ∈ matchAtomPatternConjunction hashStringOf patterns atoms bindings,
          Grows found extended) ∧
      (∀ patterns atoms atoms' bindings extended, (∀ atom, atom ∈ atoms ↔ atom ∈ atoms') →
        (extended ∈ matchAtomPatternConjunction hashStringOf patterns atoms bindings ↔
          extended ∈ matchAtomPatternConjunction hashStringOf patterns atoms' bindings)) ∧
      ∀ patterns patterns' atoms bindings extended, List.Perm patterns patterns' →
        PlainBindings bindings → (∀ atom ∈ atoms, PlainValue atom) →
        extended ∈ matchAtomPatternConjunction hashStringOf patterns atoms bindings →
        ∃ extended' ∈ matchAtomPatternConjunction hashStringOf patterns' atoms bindings,
          SameBindings extended extended' := by
  refine ⟨fun _ _ _ _ h => match_sound h, fun _ _ _ _ _ hgrows hparts hagrees hfirst =>
    match_complete hgrows hparts hagrees hfirst, fun _ _ _ _ hatom hbindings hdense hdigests hgrows
    hagrees => match_agreeing hatom hbindings hdense hdigests hgrows hagrees, ?_,
    fun _ _ _ _ hregular hatom hbindings h => match_instantiated hregular hatom hbindings h,
    ?_, ?_, ?_, fun _ _ _ _ _ hperm hbindings hatoms h =>
      conjunction_perm hperm (fun _ => Iff.rfl) hbindings hatoms h⟩
  · rintro pattern atom extended value hpattern hatom ⟨parts, hparts, hagrees⟩ hvalue
    exact covers_of_agrees pattern hpattern atom hatom parts hparts extended hagrees value hvalue
  · intro patterns atoms bindings extended h
    obtain ⟨parts, hparts, hunify⟩ := mem_conjunction.1 h
    obtain ⟨hgrows, hagrees, hfirst, honly⟩ := unify_sound hunify
    exact ⟨hgrows, parts, hparts, hagrees, hfirst, honly⟩
  · intro patterns atoms bindings extended parts hgrows hparts hagrees hfirst
    obtain ⟨found, hunify, hfound⟩ := unify_complete hgrows hagrees hfirst
    exact ⟨found, mem_conjunction.2 ⟨parts, hparts, hunify⟩, hfound⟩
  · intro patterns atoms atoms' bindings extended hsame
    rw [mem_conjunction, mem_conjunction]
    constructor
    · rintro ⟨parts, hparts, hunify⟩
      exact ⟨parts, hparts.mono fun atom => (hsame atom).1, hunify⟩
    · rintro ⟨parts, hparts, hunify⟩
      exact ⟨parts, hparts.mono fun atom => (hsame atom).2, hunify⟩

/-- `{ var: name }`. -/
def atomVar (name : JsString) : AtomPattern := .record [("var", .string name)]

/-- A digest for the example below: the text of a string. -/
def textDigest : FabricValue → JsString
  | .string s => s
  | _ => ""

/-- `{ owner, type }`. -/
def ownedAtom (type : JsString) (owner : FabricValue) : FabricValue :=
  .record [("owner", owner), ("type", .string type)]

/-- Among roles and a space whose owner is committed, a variable that both patterns hold takes
the owner of the role that has the space too. -/
theorem atomPattern_unification_role :
    let bob : FabricValue := .string "bob"
    let role := ownedAtom "role" (atomVar "x")
    let space := ownedAtom "space" (atomVar "x")
    let bobs := ownedAtom "role" bob
    let noted : FabricValue :=
      .record [("note", .string "n"), ("owner", bob), ("type", .string "role")]
    let committed := ownedAtom "space" (fieldCommitment (textDigest bob))
    let others := [ownedAtom "role" (.string "alice"), bobs]
    let bound : AtomPatternBindings := [("x", bob)]
    let wider : AtomPatternBindings := [("x", bob), ("y", .string "alice")]
    ((∃ parts, occurrences textDigest role noted = some parts ∧ AgreesOn textDigest bound parts ∧
          TakesFirst [] bound parts ∧ BindsOnly [] bound parts) ∧
        ∃ found, matchAtomPattern textDigest role noted [] = some found ∧ Grows found wider) ∧
      (∃ found, matchAtomPattern textDigest role bobs [("y", .string "alice")] = some found) ∧
      Covers textDigest bobs noted ∧
      (∃ value, instantiateAtomPattern role bound = some value ∧
        matchAtomPattern textDigest role value [] = some bound) ∧
      ((∃ parts, JointParts textDigest (others ++ [committed]) [role, space] parts ∧
          AgreesOn textDigest bound parts ∧ TakesFirst [] bound parts ∧ BindsOnly [] bound parts) ∧
        ∃ found ∈ matchAtomPatternConjunction textDigest [role, space] (others ++ [committed]) [],
          Grows found wider) ∧
      bound ∈ matchAtomPatternConjunction textDigest [role, space] (committed :: others) [] ∧
      ∃ extended ∈ matchAtomPatternConjunction textDigest [space, role]
          (others ++ [ownedAtom "space" bob]) [], SameBindings bound extended := by
  intro bob role space bobs noted committed others bound wider
  have hmatch : matchAtomPattern textDigest role bobs [] = some bound ∧
      matchAtomPattern textDigest role noted [] = some bound ∧
      instantiateAtomPattern role bound = some bobs ∧
      isDense role = true ∧ isDense noted = true ∧ isRegular role = true ∧
      isCfcAtom bobs = true ∧
      bound ∈ matchAtomPatternConjunction textDigest [role, space] (others ++ [committed]) [] ∧
      bound ∈ matchAtomPatternConjunction textDigest [role, space]
        (others ++ [ownedAtom "space" bob]) [] ∧
      (∀ atom ∈ bobs :: others ++ [ownedAtom "space" bob],
        isDense atom = true ∧ containsCfcFieldCommitment atom = false) ∧
      (∀ part ∈ wider, isDense part.2 = true ∧ containsCfcFieldCommitment part.2 = false) ∧
      DigestsDiffer textDigest (fieldsParts wider ++ parts bobs) := by decide +kernel
  obtain ⟨hbobs, hnoted, hvalue, hdense, hdenseNoted, hregular, hatom, hjoint, hplainJoint, hplain,
    hheld, hdigests⟩ := hmatch
  obtain ⟨h₁, h₂, h₃, h₄, h₅, h₆, h₇, h₈, h₉⟩ := atomPattern_unification textDigest
  have hwider : Grows bound wider := by
    intro name held hget
    obtain ⟨rfl, rfl⟩ := Prod.mk.inj (List.mem_singleton.1 (Fields.mem_of_get? hget))
    rfl
  have hnone (extended : AtomPatternBindings) : Grows [] extended := by
    intro name held hget
    cases hget
  obtain ⟨-, parts, hparts, hagrees, hfirst, honly⟩ := h₁ role noted [] bound hnoted
  obtain ⟨-, bobsParts, hbobsParts, hbobsAgrees, -⟩ := h₁ role bobs [] bound hbobs
  obtain ⟨-, joint, hjointParts, hjointAgrees, hjointFirst, hjointOnly⟩ :=
    h₆ [role, space] (others ++ [committed]) [] bound hjoint
  refine ⟨⟨⟨parts, hparts, hagrees, hfirst, honly⟩,
      h₂ role noted [] wider parts (hnone wider) hparts (hagrees.grow hwider)
        (hfirst.grow hwider)⟩, ?_,
    h₄ role noted bound bobs hdense hdenseNoted ⟨parts, hparts, hagrees⟩ hvalue,
    h₅ role bobs [] bound hregular hatom ?_ hbobs,
    ⟨⟨joint, hjointParts, hjointAgrees, hjointFirst, hjointOnly⟩,
      h₇ [role, space] (others ++ [committed]) [] wider joint (hnone wider) hjointParts
        (hjointAgrees.grow hwider) (hjointFirst.grow hwider)⟩, ?_,
    h₉ [role, space] [space, role] (others ++ [ownedAtom "space" bob]) [] bound
      (List.Perm.swap space role []) ?_ ?_ hplainJoint⟩
  · refine h₃ role bobs [("y", .string "alice")] wider (hplain _ List.mem_cons_self) ?_ ?_ hdigests
      ?_ ⟨bobsParts, hbobsParts, hbobsAgrees.grow hwider⟩
    · intro name held hget
      exact hheld (name, held) (List.mem_cons_of_mem _ (Fields.mem_of_get? hget))
    · intro name held hget
      exact (hheld (name, held) (Fields.mem_of_get? hget)).1
    · intro name held hget
      obtain ⟨rfl, rfl⟩ := Prod.mk.inj (List.mem_singleton.1 (Fields.mem_of_get? hget))
      rfl
  · constructor
    · intro name held hget
      cases hget
    · intro name held hget
      cases hget
  · exact (h₈ [role, space] _ _ [] bound
      fun atom => (List.perm_append_singleton committed others).mem_iff).1 hjoint
  · intro name held hget
    cases hget
  · intro atom hatom
    exact hplain atom (List.mem_cons_of_mem _ hatom)

/-- A record pattern matches an atom with further members, and equals it under no bindings; of two
patterns that share a variable, the one over the commitment has to come second; and a pattern with
the one member `digestOf` comes to a commitment, which it does not match. -/
theorem patterns_name_what_they_require :
    let named : AtomPattern := .record [("type", .string "space")]
    let bob : FabricValue := .string "bob"
    let committed := ownedAtom "space" (fieldCommitment (textDigest bob))
    let patterns := [ownedAtom "space" (atomVar "x"), ownedAtom "role" (atomVar "x")]
    let atoms := [committed, ownedAtom "role" bob]
    let digest : AtomPattern := .record [("digestOf", atomVar "x")]
    let bound : AtomPatternBindings := [("x", bob)]
    let noted : FabricValue := .record [("digestOf", bob), ("note", .string "n")]
    (matchAtomPattern textDigest named (ownedAtom "space" bob) [] = some [] ∧
        ∀ bindings value, instantiateAtomPattern named bindings = some value →
          commitmentAwareEquals textDigest value (ownedAtom "space" bob) = false) ∧
      (matchAtomPatternConjunction textDigest patterns atoms [] = [] ∧
        matchAtomPatternConjunction textDigest patterns.reverse atoms [] = [bound]) ∧
      matchAtomPattern textDigest digest noted [] = some bound ∧
        (instantiateAtomPattern digest bound).bind
          (matchAtomPattern textDigest digest · []) = none := by
  refine ⟨⟨by decide +kernel, fun bindings value h => ?_⟩, ⟨by decide +kernel, by decide +kernel⟩,
    by decide +kernel, by decide +kernel⟩
  have hfree : Fields.get? ([("type", .string "space")] : Members) "var" = none := by
    decide +kernel
  rw [instantiateAtomPattern, placeholder_of_no_var hfree, wellFormed_of_no_var hfree] at h
  simp only [instantiateFields, instantiateAtomPattern] at h
  cases h
  decide +kernel

end Cfc
