import CommonFabric.PatternUnification

/-!
# Conjunctions of patterns

Each pattern of a conjunction matches some atom of the pool, under one set of bindings. The
environments found are those of the joint matches: the unifications of what stands under the
variables of all the patterns.
-/

namespace Cfc

/-- It holds of the slots and members of what it holds of. -/
structure PartClosed (P : FabricValue → Prop) : Prop where
  slot : ∀ {slots : List (Option FabricValue)} {slot : Option FabricValue}, P (.array slots) →
    slot ∈ slots → P (slot.getD .undefined)
  field : ∀ {fields : Members} {key : JsString} {value : FabricValue}, P (.record fields) →
    Fields.get? fields key = some value → P value

/-- Dense, and without commitments. -/
def PlainValue (v : FabricValue) : Prop :=
  isDense v = true ∧ containsCfcFieldCommitment v = false

theorem PartClosed.and {P Q : FabricValue → Prop} (hP : PartClosed P) (hQ : PartClosed Q) :
    PartClosed fun v => P v ∧ Q v :=
  ⟨fun h hmem => ⟨hP.slot h.1 hmem, hQ.slot h.2 hmem⟩,
    fun h hget => ⟨hP.field h.1 hget, hQ.field h.2 hget⟩⟩

theorem some_of_dense_slot {slots : List (Option FabricValue)} {slot : Option FabricValue}
    (h : isDense (.array slots) = true) (hmem : slot ∈ slots) :
    ∃ v, slot = some v ∧ isDense v = true := by
  rw [isDense] at h
  exact slotsAreDense_iff.1 h slot hmem

theorem plainValue_partClosed : PartClosed PlainValue where
  slot := by
    intro slots slot h hmem
    obtain ⟨v, rfl, hv⟩ := some_of_dense_slot h.1 hmem
    exact ⟨hv, plain_slot h.2 hmem⟩
  field h hget := ⟨isDense_member h.1 hget, (plain_iff.1 h.2).2 _ (Fields.mem_of_get? hget)⟩

theorem parts_partClosed (values : List FabricValue) :
    PartClosed fun v => isDense v = true ∧ ∀ w ∈ parts v, w ∈ values where
  slot := by
    intro slots slot h hmem
    obtain ⟨v, rfl, hv⟩ := some_of_dense_slot h.1 hmem
    exact ⟨hv, fun w hw => h.2 w (List.mem_cons_of_mem _ (mem_slotsParts hmem hw))⟩
  field h hget := ⟨isDense_member h.1 hget, fun w hw =>
    h.2 w (List.mem_cons_of_mem _ (mem_fieldsParts (Fields.mem_of_get? hget) hw))⟩

section

variable {hashStringOf : FabricValue → JsString}

/-- It holds of the part, which is no malformed record with a `var`. -/
def StandsAs (P : FabricValue → Prop) (part : JsString × FabricValue) : Prop :=
  P part.2 ∧ isMalformedVarBearingRecord part.2 = false

variable {P : FabricValue → Prop} {pattern : AtomPattern} {atom : FabricValue}
  {bindings extended : AtomPatternBindings} {atoms : List FabricValue} {patterns : List AtomPattern}

theorem occurrencesGuarded_of {value : FabricValue}
    {byParts : Option Members} {found : Members} (hvalue : P value)
    (h : occurrencesGuarded hashStringOf pattern value byParts = some found)
    (hparts : byParts = some found → ∀ part ∈ found, StandsAs P part) :
    ∀ part ∈ found, StandsAs P part := by
  have hempty : some [] = some found → ∀ part ∈ found, StandsAs P part := by
    intro heq part hpart
    cases heq
    cases hpart
  rw [occurrencesGuarded] at h
  split at h
  · cases h
  rename_i hformed
  split at h
  · cases h
    intro part hpart
    rw [List.mem_singleton.1 hpart]
    exact ⟨hvalue, by simpa using hformed⟩
  split at h
  · cases h
  split at h
  · split at h
    · exact hempty h
    · cases h
  split at h
  · split at h
    · exact hempty h
    · cases h
  · exact hparts h

theorem leafOccurrences_of {value : FabricValue} {found : Members} (hvalue : P value)
    (h : leafOccurrences hashStringOf pattern value = some found) :
    ∀ part ∈ found, StandsAs P part := by
  refine occurrencesGuarded_of hvalue h fun hparts => ?_
  split at hparts
  · cases hparts
    intro part hpart
    cases hpart
  · cases hparts

theorem append_of {here rest : Option Members} {found : Members}
    (h : (here.bind fun xs => rest.map (xs ++ ·)) = some found)
    (hhere : ∀ xs, here = some xs → ∀ part ∈ xs, StandsAs P part)
    (hrest : ∀ ys, rest = some ys → ∀ part ∈ ys, StandsAs P part) :
    ∀ part ∈ found, StandsAs P part := by
  obtain ⟨xs, hxs, hmap⟩ := Option.bind_eq_some_iff.1 h
  obtain ⟨ys, hys, rfl⟩ := Option.map_eq_some_iff.1 hmap
  intro part hpart
  cases List.mem_append.1 hpart with
  | inl hpart => exact hhere xs hxs part hpart
  | inr hpart => exact hrest ys hys part hpart

mutual
/-- What stands under the variables is a part of the value. -/
theorem occurrences_of {P : FabricValue → Prop} (hP : PartClosed P) : (pattern : AtomPattern) →
    (value : FabricValue) → P value → (found : Members) →
    occurrences hashStringOf pattern value = some found → ∀ part ∈ found, StandsAs P part
  | .array slots, value, hvalue, found, h => by
    rw [occurrences] at h
    refine occurrencesGuarded_of hvalue h fun hparts => ?_
    cases value with
    | array values =>
      dsimp only [arraySlots?] at hparts
      split at hparts
      · exact slotOccurrences_of hP slots values (fun slot hslot => hP.slot hvalue hslot) found hparts
      · cases hparts
    | _ => cases hparts
  | .record fields, value, hvalue, found, h => by
    rw [occurrences] at h
    refine occurrencesGuarded_of hvalue h fun hparts => ?_
    cases value with
    | record members =>
      exact fieldOccurrences_of hP fields members (fun key v hget => hP.field hvalue hget) found
        hparts
    | special tag state =>
      exact fieldOccurrences_of hP fields [] (fun key v hget => by cases hget) found hparts
    | _ => cases hparts
  | .undefined, _, hvalue, _, h => @leafOccurrences_of hashStringOf P .undefined _ _ hvalue h
  | .null, _, hvalue, _, h => @leafOccurrences_of hashStringOf P .null _ _ hvalue h
  | .bool b, _, hvalue, _, h => @leafOccurrences_of hashStringOf P (.bool b) _ _ hvalue h
  | .number n, _, hvalue, _, h => @leafOccurrences_of hashStringOf P (.number n) _ _ hvalue h
  | .string s, _, hvalue, _, h => @leafOccurrences_of hashStringOf P (.string s) _ _ hvalue h
  | .bigint i, _, hvalue, _, h => @leafOccurrences_of hashStringOf P (.bigint i) _ _ hvalue h
  | .symbol k, _, hvalue, _, h => @leafOccurrences_of hashStringOf P (.symbol k) _ _ hvalue h
  | .special t s, _, hvalue, _, h => @leafOccurrences_of hashStringOf P (.special t s) _ _ hvalue h

theorem slotOccurrences_of {P : FabricValue → Prop} (hP : PartClosed P) :
    (slots : List (Option AtomPattern)) → (values : List (Option FabricValue)) →
    (∀ slot ∈ values, P (slot.getD .undefined)) → (found : Members) →
    slotOccurrences hashStringOf slots values = some found → ∀ part ∈ found, StandsAs P part
  | [], values, _, found, h => by
    cases values <;> cases h <;> intro part hpart <;> cases hpart
  | none :: slots, [], _, found, h => by cases h; intro part hpart; cases hpart
  | some pattern :: slots, [], _, found, h => by cases h; intro part hpart; cases hpart
  | none :: slots, value :: values, hvalues, found, h => by
    rw [slotOccurrences] at h
    exact append_of h (fun xs hxs => leafOccurrences_of (hvalues value List.mem_cons_self) hxs)
      fun ys hys => slotOccurrences_of hP slots values
        (fun slot hslot => hvalues slot (List.mem_cons_of_mem _ hslot)) ys hys
  | some pattern :: slots, value :: values, hvalues, found, h => by
    rw [slotOccurrences] at h
    exact append_of h
      (fun xs hxs => occurrences_of hP pattern _ (hvalues value List.mem_cons_self) xs hxs)
      fun ys hys => slotOccurrences_of hP slots values
        (fun slot hslot => hvalues slot (List.mem_cons_of_mem _ hslot)) ys hys

theorem fieldOccurrences_of {P : FabricValue → Prop} (hP : PartClosed P) : (fields : Members) →
    (members : Members) → (∀ key v, Fields.get? members key = some v → P v) → (found : Members) →
    fieldOccurrences hashStringOf fields members = some found → ∀ part ∈ found, StandsAs P part
  | [], members, _, found, h => by cases h; intro part hpart; cases hpart
  | (key, pattern) :: fields, members, hmembers, found, h => by
    rw [fieldOccurrences] at h
    cases hget : Fields.get? members key with
    | none =>
      rw [hget] at h
      dsimp only at h
      split at h
      · exact fieldOccurrences_of hP fields members hmembers found h
      · cases h
    | some value =>
      rw [hget] at h
      dsimp only at h
      split at h
      · cases h
      · exact append_of h
          (fun xs hxs => occurrences_of hP pattern value (hmembers key value hget) xs hxs)
          fun ys hys => fieldOccurrences_of hP fields members hmembers ys hys
end

variable (hashStringOf) in
/-- The pattern stands over the value, and each variable is bound to what equals the parts it
stands for. A record compares on the members that the pattern names. -/
def Agrees (extended : AtomPatternBindings) (pattern : AtomPattern) (value : FabricValue) : Prop :=
  ∃ parts, occurrences hashStringOf pattern value = some parts ∧
    AgreesOn hashStringOf extended parts

theorem same_of_plain {u v : FabricValue} (hu : PlainValue u) (hv : PlainValue v)
    (h : commitmentAwareEquals hashStringOf u v = true) : sameValue u v = true :=
  same_of_aware hu.1 hv.1 hu.2 hv.2 h

theorem plain_not_marker {v : FabricValue} (h : PlainValue v) : isCfcFieldCommitment v = false := by
  rw [isCfcFieldCommitment, plain_not_commitment h.2]
  rfl

/-- A match is an extension that agrees with the pattern, and takes the first part that each new
variable stands for. -/
theorem match_sound (h : matchAtomPattern hashStringOf pattern atom bindings = some extended) :
    Grows bindings extended ∧ ∃ parts, occurrences hashStringOf pattern atom = some parts ∧
      AgreesOn hashStringOf extended parts ∧ TakesFirst bindings extended parts ∧
      BindsOnly bindings extended parts := by
  rw [matchAtomPattern_eq] at h
  obtain ⟨parts, hparts, hunify⟩ := Option.bind_eq_some_iff.1 h
  obtain ⟨hgrows, hagrees, hfirst, honly⟩ := unify_sound hunify
  exact ⟨hgrows, parts, hparts, hagrees, hfirst, honly⟩

theorem match_complete {parts : Members}
    (hgrows : Grows bindings extended) (hparts : occurrences hashStringOf pattern atom = some parts)
    (hagrees : AgreesOn hashStringOf extended parts) (hfirst : TakesFirst bindings extended parts) :
    ∃ found, matchAtomPattern hashStringOf pattern atom bindings = some found ∧
      Grows found extended := by
  rw [matchAtomPattern_eq, hparts]
  exact unify_complete hgrows hagrees hfirst

/-- Bindings of dense values. -/
def DenseBindings (bindings : AtomPatternBindings) : Prop :=
  ∀ name bound, Fields.get? bindings name = some bound → isDense bound = true

def PlainBindings (bindings : AtomPatternBindings) : Prop :=
  ∀ name bound, Fields.get? bindings name = some bound → PlainValue bound

/-- Without commitments in the atom and in what is bound, any extension that agrees is enough. -/
theorem match_agreeing (hatom : PlainValue atom)
    (hbindings : PlainBindings bindings) (hdense : DenseBindings extended)
    (hdigests : DigestsDiffer hashStringOf (fieldsParts extended ++ parts atom))
    (hgrows : Grows bindings extended) (hagrees : Agrees hashStringOf extended pattern atom) :
    ∃ found, matchAtomPattern hashStringOf pattern atom bindings = some found := by
  obtain ⟨found, hfound, hagreesOn⟩ := hagrees
  have hextended : ∀ name bound, Fields.get? extended name = some bound →
      ∀ w ∈ parts bound, w ∈ fieldsParts extended ++ parts atom := fun name bound hget w hw =>
    List.mem_append_left _ (mem_fieldsParts (Fields.mem_of_get? hget) hw)
  have hclosed := plainValue_partClosed.and (parts_partClosed (fieldsParts extended ++ parts atom))
  have hparts := occurrences_of hclosed pattern atom
    ⟨hatom, hatom.1, fun w hw => List.mem_append_right _ hw⟩ found hfound
  have hunify := unify_agreeing (fun v => PlainValue v ∧
      isDense v = true ∧ ∀ w ∈ parts v, w ∈ fieldsParts extended ++ parts atom) extended
    (fun name bound hget u v hu hv hequ heqv => ?_) (fun v hv => plain_not_marker hv.1)
    (fun name value hmem => (hparts (name, value) hmem).1)
    (fun name bound hget => ⟨hbindings name bound hget, (hbindings name bound hget).1,
      hextended name bound (hgrows name bound hget)⟩)
    (BoundWithin.of_grows hgrows) hagreesOn
  · obtain ⟨result, hresult, _⟩ := hunify
    refine ⟨result, ?_⟩
    rw [matchAtomPattern_eq, hfound]
    exact hresult
  · have hbound := hdense name bound hget
    refine aware_trans hu.1.1 hbound hv.1.1 (level_of_plain hu.1.2) (level_of_plain hv.1.2).symm
      (level_of_plain hu.1.2) (hdigests.mono fun w hw => ?_) (aware_symm hbound hu.1.1 hequ) heqv
    simp only [List.mem_append] at hw
    rcases hw with (hw | hw) | hw
    · exact hu.2.2 w hw
    · exact hextended name bound hget w hw
    · exact hv.2.2 w hw

section

variable (hashStringOf)

/-- The environments that each pattern in turn leaves of those there are. -/
def conjunctionFrom (atoms : List FabricValue) : List AtomPattern → List AtomPatternBindings →
    List AtomPatternBindings
  | [], environments => environments
  | pattern :: patterns, environments =>
    let next := (environments.flatMap
      (matchAtomPatternAgainstAtoms hashStringOf pattern atoms)).foldl pushUniqueBindings []
    if next = [] then [] else conjunctionFrom atoms patterns next

def matchAtomPatternConjunction (patterns : List AtomPattern) (atoms : List FabricValue)
    (bindings : AtomPatternBindings) : List AtomPatternBindings :=
  conjunctionFrom hashStringOf atoms patterns [bindings]

/-- The parts under the variables of all the patterns, each of which stands over an atom. -/
inductive JointParts (atoms : List FabricValue) : List AtomPattern → Members → Prop
  | nil : JointParts atoms [] []
  | cons {pattern : AtomPattern} {patterns : List AtomPattern} {atom : FabricValue}
      {here rest : Members} (hatom : atom ∈ atoms)
      (hhere : occurrences hashStringOf pattern atom = some here)
      (hrest : JointParts atoms patterns rest) : JointParts atoms (pattern :: patterns) (here ++ rest)

end

theorem mem_conjunctionFrom {environments : List AtomPatternBindings} :
    extended ∈ conjunctionFrom hashStringOf atoms patterns environments ↔
      ∃ bindings ∈ environments, ∃ parts, JointParts hashStringOf atoms patterns parts ∧
        unify hashStringOf parts bindings = some extended := by
  induction patterns generalizing environments with
  | nil =>
    rw [conjunctionFrom]
    constructor
    · intro h
      exact ⟨extended, h, [], .nil, rfl⟩
    · rintro ⟨bindings, hmem, parts, hparts, hunify⟩
      cases hparts
      cases hunify
      exact hmem
  | cons pattern patterns ih =>
    have hnext : ∀ current, current ∈ (environments.flatMap
        (matchAtomPatternAgainstAtoms hashStringOf pattern atoms)).foldl pushUniqueBindings [] ↔
        ∃ bindings ∈ environments, ∃ atom ∈ atoms, ∃ here,
          occurrences hashStringOf pattern atom = some here ∧
            unify hashStringOf here bindings = some current := by
      intro current
      rw [mem_foldl_pushUniqueBindings, List.mem_flatMap]
      simp only [List.not_mem_nil, false_or, mem_matchAtomPatternAgainstAtoms, matchAtomPattern_eq,
        Option.bind_eq_some_iff]
    have hmem : extended ∈ conjunctionFrom hashStringOf atoms (pattern :: patterns) environments ↔
        extended ∈ conjunctionFrom hashStringOf atoms patterns ((environments.flatMap
          (matchAtomPatternAgainstAtoms hashStringOf pattern atoms)).foldl pushUniqueBindings []) := by
      rw [conjunctionFrom]
      split
      · rename_i hnil
        rw [hnil, ih]
        simp
      · rfl
    rw [hmem, ih]
    constructor
    · rintro ⟨current, hcurrent, rest, hrest, hunify⟩
      obtain ⟨bindings, hbindings, atom, hatom, here, hhere, hcurrent⟩ := (hnext current).1 hcurrent
      refine ⟨bindings, hbindings, here ++ rest, .cons hatom hhere hrest, ?_⟩
      rw [unify_append, hcurrent]
      exact hunify
    · rintro ⟨bindings, hbindings, parts, hparts, hunify⟩
      cases hparts with
      | cons hatom hhere hrest =>
        rw [unify_append] at hunify
        obtain ⟨current, hcurrent, hunify⟩ := Option.bind_eq_some_iff.1 hunify
        exact ⟨current, (hnext current).2 ⟨bindings, hbindings, _, hatom, _, hhere, hcurrent⟩, _,
          hrest, hunify⟩

/-- The environments of a conjunction are the unifications of its joint matches. -/
theorem mem_conjunction :
    extended ∈ matchAtomPatternConjunction hashStringOf patterns atoms bindings ↔
      ∃ parts, JointParts hashStringOf atoms patterns parts ∧
        unify hashStringOf parts bindings = some extended := by
  rw [matchAtomPatternConjunction, mem_conjunctionFrom]
  simp

theorem JointParts.mono {atoms' : List FabricValue}
    {parts : Members} (h : JointParts hashStringOf atoms patterns parts)
    (hsub : ∀ atom ∈ atoms, atom ∈ atoms') : JointParts hashStringOf atoms' patterns parts := by
  induction h with
  | nil => exact .nil
  | cons hatom hhere _ ih => exact .cons (hsub _ hatom) hhere ih

theorem JointParts.perm {patterns' : List AtomPattern}
    (hperm : patterns.Perm patterns') {parts : Members}
    (h : JointParts hashStringOf atoms patterns parts) :
    ∃ parts', JointParts hashStringOf atoms patterns' parts' ∧ parts.Perm parts' := by
  induction hperm generalizing parts with
  | nil => exact ⟨parts, h, .refl _⟩
  | cons pattern _ ih =>
    cases h with
    | cons hatom hhere hrest =>
      obtain ⟨rest', hrest', hparts⟩ := ih hrest
      exact ⟨_, .cons hatom hhere hrest', hparts.append_left _⟩
  | swap first second patterns =>
    cases h with
    | cons hatom hhere hrest =>
      cases hrest with
      | @cons _ _ _ here' rest hatom' hhere' hrest =>
        refine ⟨_, .cons hatom' hhere' (.cons hatom hhere hrest), ?_⟩
        rw [← List.append_assoc, ← List.append_assoc]
        exact List.perm_append_comm.append_right rest
  | trans _ _ ih ih' =>
    obtain ⟨parts', hparts', hperm'⟩ := ih h
    obtain ⟨parts'', hparts'', hperm''⟩ := ih' hparts'
    exact ⟨parts'', hparts'', hperm'.trans hperm''⟩

theorem JointParts.of (hP : PartClosed P) (hatoms : ∀ atom ∈ atoms, P atom) {parts : Members}
    (h : JointParts hashStringOf atoms patterns parts) : ∀ part ∈ parts, P part.2 := by
  induction h with
  | nil => intro part hpart; cases hpart
  | cons hatom hhere _ ih =>
    intro part hpart
    cases List.mem_append.1 hpart with
    | inl hpart => exact (occurrences_of hP _ _ (hatoms _ hatom) _ hhere part hpart).1
    | inr hpart => exact ih part hpart

/-- Both bind the same variables, to values that are the same. -/
def SameBindings (a b : AtomPatternBindings) : Prop :=
  ∀ name, Option.Rel (fun u v => sameValue u v = true) (Fields.get? a name) (Fields.get? b name)

/-- What is bound comes from the start or from a part. -/
theorem unify_from {parts : Members}
    (hbindings : ∀ name bound, Fields.get? bindings name = some bound → P bound)
    (hparts : ∀ part ∈ parts, P part.2) (h : unify hashStringOf parts bindings = some extended)
    (name : JsString) (bound : FabricValue) (hbound : Fields.get? extended name = some bound) :
    P bound := by
  obtain ⟨hgrows, _, hfirst, honly⟩ := unify_sound h
  cases hstart : Fields.get? bindings name with
  | some start =>
    rw [hgrows name start hstart, Option.some.injEq] at hbound
    exact hbound ▸ hbindings name start hstart
  | none =>
    cases hget : Fields.get? parts name with
    | none => rw [honly name hstart hget] at hbound; cases hbound
    | some value =>
      rw [(hfirst name value hstart hget).2, Option.some.injEq] at hbound
      exact hbound ▸ hparts (name, value) (Fields.mem_of_get? hget)

theorem bound_iff_of_unify {parts : Members}
    (h : unify hashStringOf parts bindings = some extended) (name : JsString) :
    Fields.get? extended name = none ↔
      Fields.get? bindings name = none ∧ name ∉ parts.map (·.1) := by
  obtain ⟨hgrows, _, hfirst, honly⟩ := unify_sound h
  rw [← Fields.get?_eq_none_iff]
  constructor
  · intro hnone
    cases hstart : Fields.get? bindings name with
    | some start => rw [hgrows name start hstart] at hnone; cases hnone
    | none =>
      cases hget : Fields.get? parts name with
      | none => exact ⟨rfl, rfl⟩
      | some value => rw [(hfirst name value hstart hget).2] at hnone; cases hnone
  · rintro ⟨hstart, hget⟩
    exact honly name hstart hget

/-- Parts that are unified in another order come to the same bindings. -/
theorem unify_perm {parts parts' : Members}
    (hperm : parts.Perm parts') (hbindings : PlainBindings bindings)
    (hparts : ∀ part ∈ parts, PlainValue part.2)
    (h : unify hashStringOf parts bindings = some extended) :
    ∃ extended', unify hashStringOf parts' bindings = some extended' ∧
      SameBindings extended extended' := by
  have hparts' : ∀ part ∈ parts', PlainValue part.2 := fun part hpart =>
    hparts part (hperm.mem_iff.2 hpart)
  have hextended := unify_from hbindings hparts h
  obtain ⟨hgrows, hagrees, _, _⟩ := unify_sound h
  have hfound : ∃ found, unify hashStringOf parts' bindings = some found ∧
      BoundWithin hashStringOf found extended := unify_agreeing PlainValue extended
    (fun name bound hget u v hu hv hequ heqv => aware_of_same (sameValue_trans
      (sameValue_symm (same_of_plain (hextended name bound hget) hu hequ))
      (same_of_plain (hextended name bound hget) hv heqv)))
    (fun v hv => plain_not_marker hv) (fun name value hmem => hparts' (name, value) hmem) hbindings
    (BoundWithin.of_grows hgrows)
    (fun name value hmem => hagrees name value (hperm.mem_iff.2 hmem))
  obtain ⟨extended', hunify, hwithin⟩ := hfound
  refine ⟨extended', hunify, fun name => ?_⟩
  have hextended' := unify_from hbindings hparts' hunify
  have hbound : Fields.get? extended name = none ↔ Fields.get? extended' name = none := by
    rw [bound_iff_of_unify h, bound_iff_of_unify hunify, (hperm.map _).mem_iff]
  cases hleft : Fields.get? extended name with
  | none => rw [hbound.1 hleft]; exact .none
  | some bound =>
    cases hright : Fields.get? extended' name with
    | none => rw [hbound.2 hright] at hleft; cases hleft
    | some bound' =>
      obtain ⟨other, hother, hequal⟩ := hwithin name bound' hright
      rw [hleft, Option.some.injEq] at hother
      subst hother
      exact .some (same_of_plain (hextended name bound hleft) (hextended' name bound' hright) hequal)

/-- Where nothing is committed, neither the order of the patterns nor that of the atoms changes
the environments. -/
theorem conjunction_perm {patterns' : List AtomPattern} {atoms' : List FabricValue}
    (hperm : patterns.Perm patterns')
    (hsame : ∀ atom, atom ∈ atoms ↔ atom ∈ atoms') (hbindings : PlainBindings bindings)
    (hatoms : ∀ atom ∈ atoms, PlainValue atom)
    (h : extended ∈ matchAtomPatternConjunction hashStringOf patterns atoms bindings) :
    ∃ extended' ∈ matchAtomPatternConjunction hashStringOf patterns' atoms' bindings,
      SameBindings extended extended' := by
  obtain ⟨parts, hparts, hunify⟩ := mem_conjunction.1 h
  obtain ⟨parts', hparts', hpartsPerm⟩ := hparts.perm hperm
  obtain ⟨extended', hunify', hbound⟩ := unify_perm hpartsPerm hbindings
    (hparts.of plainValue_partClosed hatoms) hunify
  exact ⟨extended', mem_conjunction.2 ⟨parts', hparts'.mono fun atom => (hsame atom).1, hunify'⟩,
    hbound⟩

end
end Cfc
