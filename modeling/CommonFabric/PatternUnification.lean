import CommonFabric.CommitmentEquality

/-!
# Matching as unification

A pattern stands over a value: each of its variables stands for some parts of the value, in the
order the pattern lists them. A match unifies those parts, under the bindings it starts from.
-/

namespace Cfc

section

variable (hashStringOf : FabricValue → JsString)

/-- What stands under the variables of a pattern, where that is decided before its parts. -/
def occurrencesGuarded (pattern : AtomPattern) (value : FabricValue) (byParts : Option Members) :
    Option Members :=
  if isMalformedVarBearingRecord value then none
  else
    match atomVarPlaceholder? pattern with
    | some name => some [(name, value)]
    | none =>
      if isMalformedVarBearingRecord pattern then none
      else if isCfcFieldCommitment pattern then
        if commitmentAwareEquals hashStringOf pattern value then some [] else none
      else if isCfcFieldCommitment value then
        if patternIsConcrete pattern && commitmentAwareEquals hashStringOf pattern value then
          some []
        else none
      else byParts

def leafOccurrences (pattern : AtomPattern) (value : FabricValue) : Option Members :=
  occurrencesGuarded hashStringOf pattern value (if sameValue pattern value then some [] else none)

mutual
/-- The variables of a pattern that stands over a value, each with the part it stands for. -/
def occurrences : AtomPattern → FabricValue → Option Members
  | .array slots, value => occurrencesGuarded hashStringOf (.array slots) value <|
    match arraySlots? value with
    | some values => if values.length = slots.length then slotOccurrences slots values else none
    | none => none
  | .record fields, value => occurrencesGuarded hashStringOf (.record fields) value <|
    match objectMembers? value with
    | some members => fieldOccurrences fields members
    | none => none
  | pattern, value => leafOccurrences hashStringOf pattern value
termination_by structural pattern => pattern

def slotOccurrences : List (Option AtomPattern) → List (Option FabricValue) → Option Members
  | none :: slots, value :: values =>
    (leafOccurrences hashStringOf .undefined (value.getD .undefined)).bind fun here =>
      (slotOccurrences slots values).map (here ++ ·)
  | some pattern :: slots, value :: values =>
    (occurrences pattern (value.getD .undefined)).bind fun here =>
      (slotOccurrences slots values).map (here ++ ·)
  | _, _ => some []
termination_by structural slots => slots

def fieldOccurrences : Members → Members → Option Members
  | [], _ => some []
  | (key, pattern) :: fields, members =>
    match Fields.get? members key with
    | none => if pattern = .undefined then fieldOccurrences fields members else none
    | some value =>
      if pattern = .undefined then none
      else
        (occurrences pattern value).bind fun here =>
          (fieldOccurrences fields members).map (here ++ ·)
termination_by structural fields => fields
end

/-- Each part in turn is bound, or compared with what its variable is bound to. -/
def unify : Members → AtomPatternBindings → Option AtomPatternBindings
  | [], bindings => some bindings
  | (name, value) :: rest, bindings =>
    match Fields.get? bindings name with
    | some bound => if commitmentAwareEquals hashStringOf bound value then unify rest bindings else none
    | none =>
      if isCfcFieldCommitment value then none else unify rest (Fields.set bindings name value)

variable {hashStringOf}

theorem unify_append (xs ys : Members) (bindings : AtomPatternBindings) :
    unify hashStringOf (xs ++ ys) bindings =
      (unify hashStringOf xs bindings).bind (unify hashStringOf ys) := by
  induction xs generalizing bindings with
  | nil => rfl
  | cons x xs ih =>
    obtain ⟨name, value⟩ := x
    rw [List.cons_append, unify, unify]
    cases Fields.get? bindings name with
    | some bound =>
      dsimp only
      split
      · exact ih bindings
      · rfl
    | none =>
      dsimp only
      split
      · rfl
      · exact ih _

variable {bindings extended : AtomPatternBindings} {parts : Members}

theorem matchGuarded_eq {pattern : AtomPattern} {value : FabricValue}
    {byParts : Option AtomPatternBindings} {parts : Option Members}
    (h : byParts = parts.bind (unify hashStringOf · bindings)) :
    matchGuarded hashStringOf pattern value bindings byParts =
      (occurrencesGuarded hashStringOf pattern value parts).bind (unify hashStringOf · bindings) := by
  rw [matchGuarded, occurrencesGuarded]
  split
  · rfl
  cases atomVarPlaceholder? pattern with
  | some name =>
    cases hget : Fields.get? bindings name with
    | none => simp [unify, hget]
    | some held => simp [unify, hget]
  | none =>
    dsimp only
    split
    · rfl
    split
    · split <;> rfl
    split
    · split <;> rfl
    · exact h

theorem matchLeaf_eq (pattern : AtomPattern) (value : FabricValue)
    (bindings : AtomPatternBindings) :
    matchLeaf hashStringOf pattern value bindings =
      (leafOccurrences hashStringOf pattern value).bind (unify hashStringOf · bindings) := by
  rw [matchLeaf, leafOccurrences]
  apply matchGuarded_eq
  split <;> rfl

theorem bind_unify_append (here rest : Option Members) (bindings : AtomPatternBindings) :
    (here.bind fun xs => rest.map (xs ++ ·)).bind (unify hashStringOf · bindings) =
      (here.bind (unify hashStringOf · bindings)).bind fun current =>
        rest.bind (unify hashStringOf · current) := by
  cases here with
  | none => rfl
  | some xs =>
    cases rest with
    | none =>
      simp only [Option.map_none, Option.bind_none, Option.bind_some]
      cases unify hashStringOf xs bindings <;> rfl
    | some ys =>
      simp only [Option.map_some, Option.bind_some, unify_append]

mutual
/-- Matching a pattern unifies what stands under its variables. -/
theorem matchPatternValue_eq : (pattern : AtomPattern) → (value : FabricValue) →
    (bindings : AtomPatternBindings) → matchPatternValue hashStringOf pattern value bindings =
      (occurrences hashStringOf pattern value).bind (unify hashStringOf · bindings)
  | .array slots, value, bindings => by
    rw [matchPatternValue, occurrences]
    apply matchGuarded_eq
    cases arraySlots? value with
    | none => rfl
    | some values =>
      dsimp only
      split
      · exact matchSlots_eq slots values bindings
      · rfl
  | .record fields, value, bindings => by
    rw [matchPatternValue, occurrences]
    apply matchGuarded_eq
    cases objectMembers? value with
    | none => rfl
    | some members => exact matchFields_eq fields members bindings
  | .undefined, _, _ => matchLeaf_eq .undefined _ _
  | .null, _, _ => matchLeaf_eq .null _ _
  | .bool b, _, _ => matchLeaf_eq (.bool b) _ _
  | .number n, _, _ => matchLeaf_eq (.number n) _ _
  | .string s, _, _ => matchLeaf_eq (.string s) _ _
  | .bigint i, _, _ => matchLeaf_eq (.bigint i) _ _
  | .symbol key, _, _ => matchLeaf_eq (.symbol key) _ _
  | .special tag state, _, _ => matchLeaf_eq (.special tag state) _ _

theorem matchSlots_eq : (slots : List (Option AtomPattern)) → (values : List (Option FabricValue)) →
    (bindings : AtomPatternBindings) → matchSlots hashStringOf slots values bindings =
      (slotOccurrences hashStringOf slots values).bind (unify hashStringOf · bindings)
  | [], values, bindings => by cases values <;> rfl
  | none :: slots, [], bindings => rfl
  | some pattern :: slots, [], bindings => rfl
  | none :: slots, value :: values, bindings => by
    rw [matchSlots, slotOccurrences, bind_unify_append, matchLeaf_eq]
    cases (leafOccurrences hashStringOf .undefined (value.getD .undefined)).bind
        (unify hashStringOf · bindings) with
    | none => rfl
    | some current => exact matchSlots_eq slots values current
  | some pattern :: slots, value :: values, bindings => by
    rw [matchSlots, slotOccurrences, bind_unify_append, matchPatternValue_eq pattern]
    cases (occurrences hashStringOf pattern (value.getD .undefined)).bind
        (unify hashStringOf · bindings) with
    | none => rfl
    | some current => exact matchSlots_eq slots values current

theorem matchFields_eq : (fields members : Members) → (bindings : AtomPatternBindings) →
    matchFields hashStringOf fields members bindings =
      (fieldOccurrences hashStringOf fields members).bind (unify hashStringOf · bindings)
  | [], members, bindings => rfl
  | (key, pattern) :: fields, members, bindings => by
    rw [matchFields, fieldOccurrences]
    cases Fields.get? members key with
    | none =>
      dsimp only
      split
      · exact matchFields_eq fields members bindings
      · rfl
    | some value =>
      dsimp only
      split
      · rfl
      · rw [bind_unify_append, matchPatternValue_eq pattern]
        cases (occurrences hashStringOf pattern value).bind (unify hashStringOf · bindings) with
        | none => rfl
        | some current => exact matchFields_eq fields members current
end

theorem matchAtomPattern_eq (pattern : AtomPattern) (atom : FabricValue)
    (bindings : AtomPatternBindings) : matchAtomPattern hashStringOf pattern atom bindings =
      (occurrences hashStringOf pattern atom).bind (unify hashStringOf · bindings) :=
  matchPatternValue_eq pattern atom bindings

variable (hashStringOf) in
/-- Each part equals what its variable is bound to. -/
def AgreesOn (extended : AtomPatternBindings) (parts : Members) : Prop :=
  ∀ name value, (name, value) ∈ parts →
    ∃ bound, Fields.get? extended name = some bound ∧
      commitmentAwareEquals hashStringOf bound value = true

/-- A variable that is not bound yet takes the first part it stands for, which is no commitment. -/
def TakesFirst (bindings extended : AtomPatternBindings) (parts : Members) : Prop :=
  ∀ name value, Fields.get? bindings name = none → Fields.get? parts name = some value →
    isCfcFieldCommitment value = false ∧ Fields.get? extended name = some value

/-- No variable is bound but those that were and those that stand for a part. -/
def BindsOnly (bindings extended : AtomPatternBindings) (parts : Members) : Prop :=
  ∀ name, Fields.get? bindings name = none → Fields.get? parts name = none →
    Fields.get? extended name = none

theorem AgreesOn.tail {part : JsString × FabricValue}
    (h : AgreesOn hashStringOf extended (part :: parts)) :
    AgreesOn hashStringOf extended parts :=
  fun name value hmem => h name value (List.mem_cons_of_mem _ hmem)

theorem AgreesOn.grow {wider : AtomPatternBindings} (h : AgreesOn hashStringOf extended parts)
    (hgrows : Grows extended wider) : AgreesOn hashStringOf wider parts := by
  intro name value hmem
  obtain ⟨bound, hget, hequal⟩ := h name value hmem
  exact ⟨bound, hgrows name bound hget, hequal⟩

theorem TakesFirst.grow {wider : AtomPatternBindings} (h : TakesFirst bindings extended parts)
    (hgrows : Grows extended wider) : TakesFirst bindings wider parts := by
  intro name value hfree hget
  obtain ⟨hmarker, hbound⟩ := h name value hfree hget
  exact ⟨hmarker, hgrows name value hbound⟩

theorem unify_sound (h : unify hashStringOf parts bindings = some extended) :
    Grows bindings extended ∧ AgreesOn hashStringOf extended parts ∧
      TakesFirst bindings extended parts ∧ BindsOnly bindings extended parts := by
  induction parts generalizing bindings with
  | nil =>
    cases h
    refine ⟨Grows.refl _, fun _ _ hmem => ?_, fun _ _ _ hget => ?_, fun _ hfree _ => hfree⟩
    · cases hmem
    · cases hget
  | cons part parts ih =>
    obtain ⟨name, value⟩ := part
    rw [unify] at h
    cases hbound : Fields.get? bindings name with
    | some bound =>
      rw [hbound] at h
      dsimp only at h
      split at h
      · rename_i hequal
        obtain ⟨hgrows, hagrees, hfirst, honly⟩ := ih h
        have hother : ∀ other, Fields.get? bindings other = none → name ≠ other := by
          rintro other hfree rfl
          rw [hbound] at hfree
          cases hfree
        refine ⟨hgrows, fun other v hmem => ?_, fun other v hfree hget => ?_,
          fun other hfree hget => ?_⟩
        · cases hmem with
          | head => exact ⟨bound, hgrows _ _ hbound, hequal⟩
          | tail _ hmem => exact hagrees other v hmem
        · rw [Fields.get?_cons, if_neg (hother other hfree)] at hget
          exact hfirst other v hfree hget
        · rw [Fields.get?_cons, if_neg (hother other hfree)] at hget
          exact honly other hfree hget
      · cases h
    | none =>
      rw [hbound] at h
      dsimp only at h
      split at h
      · cases h
      rename_i hplain
      obtain ⟨hgrows, hagrees, hfirst, honly⟩ := ih h
      have hset : Fields.get? extended name = some value :=
        hgrows name value (by rw [Fields.get?_set, if_pos rfl])
      have hfree' : ∀ other, Fields.get? bindings other = none → name ≠ other →
          Fields.get? (Fields.set bindings name value) other = none := by
        intro other hfree hne
        rw [Fields.get?_set, if_neg hne, hfree]
      refine ⟨(grows_set hbound value).trans hgrows, fun other v hmem => ?_,
        fun other v hfree hget => ?_, fun other hfree hget => ?_⟩
      · cases hmem with
        | head => exact ⟨value, hset, aware_of_same (sameValue_refl value)⟩
        | tail _ hmem => exact hagrees other v hmem
      · rw [Fields.get?_cons] at hget
        split at hget
        · rename_i heq
          rw [← heq, ← Option.some.inj hget]
          exact ⟨by simpa using hplain, hset⟩
        · rename_i hne
          exact hfirst other v (hfree' other hfree hne) hget
      · rw [Fields.get?_cons] at hget
        split at hget
        · cases hget
        · rename_i hne
          exact honly other (hfree' other hfree hne) hget

/-- Where some extension agrees with the parts and takes the first ones, unification finds it. -/
theorem unify_complete
    (hgrows : Grows bindings extended) (hagrees : AgreesOn hashStringOf extended parts)
    (hfirst : TakesFirst bindings extended parts) :
    ∃ found, unify hashStringOf parts bindings = some found ∧ Grows found extended := by
  induction parts generalizing bindings with
  | nil => exact ⟨bindings, rfl, hgrows⟩
  | cons part parts ih =>
    obtain ⟨name, value⟩ := part
    rw [unify]
    cases hbound : Fields.get? bindings name with
    | some bound =>
      obtain ⟨bound', hbound', hequal⟩ := hagrees name value List.mem_cons_self
      rw [hgrows name bound hbound, Option.some.injEq] at hbound'
      subst hbound'
      dsimp only
      rw [if_pos hequal]
      apply ih hgrows hagrees.tail
      intro other v hfree hget
      apply hfirst other v hfree
      rw [Fields.get?_cons, if_neg, hget]
      rintro rfl
      rw [hbound] at hfree
      cases hfree
    | none =>
      obtain ⟨hplain, hset⟩ := hfirst name value hbound (by rw [Fields.get?_cons, if_pos rfl])
      dsimp only
      rw [hplain, if_neg (by decide)]
      apply ih _ hagrees.tail
      · intro other v hfree hget
        rw [Fields.get?_set] at hfree
        split at hfree
        · cases hfree
        · rename_i hne
          apply hfirst other v hfree
          rw [Fields.get?_cons, if_neg hne, hget]
      · intro other v hget
        rw [Fields.get?_set] at hget
        split at hget
        · rename_i heq
          rw [← heq, ← Option.some.inj hget]
          exact hset
        · exact hgrows other v hget

/-- What is bound in the first is bound in the second to what equals it. -/
def BoundWithin (hashStringOf : FabricValue → JsString) (found extended : AtomPatternBindings) :
    Prop :=
  ∀ name bound, Fields.get? found name = some bound →
    ∃ bound', Fields.get? extended name = some bound' ∧
      commitmentAwareEquals hashStringOf bound' bound = true

theorem BoundWithin.of_grows
    (h : Grows bindings extended) : BoundWithin hashStringOf bindings extended :=
  fun name bound hbound => ⟨bound, h name bound hbound, aware_of_same (sameValue_refl bound)⟩

/-- Among values that equal each other once they equal what a variable is bound to, any bindings
that agree with the parts are enough: which part comes first makes no difference. -/
theorem unify_agreeing (values : FabricValue → Prop) (extended : AtomPatternBindings)
    (hjoin : ∀ name bound, Fields.get? extended name = some bound → ∀ u v, values u → values v →
      commitmentAwareEquals hashStringOf bound u = true →
      commitmentAwareEquals hashStringOf bound v = true →
      commitmentAwareEquals hashStringOf u v = true)
    (hplain : ∀ v, values v → isCfcFieldCommitment v = false)
    (hparts : ∀ name value, (name, value) ∈ parts → values value)
    (hbindings : ∀ name bound, Fields.get? bindings name = some bound → values bound)
    (hwithin : BoundWithin hashStringOf bindings extended)
    (hagrees : AgreesOn hashStringOf extended parts) :
    ∃ found, unify hashStringOf parts bindings = some found ∧
      BoundWithin hashStringOf found extended := by
  induction parts generalizing bindings with
  | nil => exact ⟨bindings, rfl, hwithin⟩
  | cons part parts ih =>
    obtain ⟨name, value⟩ := part
    have hvalue := hparts name value List.mem_cons_self
    have hrest : ∀ other v, (other, v) ∈ parts → values v := fun other v hmem =>
      hparts other v (List.mem_cons_of_mem _ hmem)
    obtain ⟨bound', hbound', hequal⟩ := hagrees name value List.mem_cons_self
    rw [unify]
    cases hbound : Fields.get? bindings name with
    | some bound =>
      obtain ⟨bound'', hbound'', hequal'⟩ := hwithin name bound hbound
      rw [hbound', Option.some.injEq] at hbound''
      subst hbound''
      dsimp only
      rw [if_pos (hjoin name bound' hbound' bound value (hbindings name bound hbound) hvalue hequal'
        hequal)]
      exact ih hrest hbindings hwithin hagrees.tail
    | none =>
      dsimp only
      rw [hplain value hvalue, if_neg (by decide)]
      apply ih hrest _ _ hagrees.tail
      · intro other v hget
        rw [Fields.get?_set] at hget
        split at hget
        · rw [← Option.some.inj hget]
          exact hvalue
        · exact hbindings other v hget
      · intro other v hget
        rw [Fields.get?_set] at hget
        split at hget
        · rename_i heq
          rw [← heq, ← Option.some.inj hget]
          exact ⟨bound', hbound', hequal⟩
        · exact hwithin other v hget

end
end Cfc
