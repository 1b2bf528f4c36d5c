import CommonFabric.CfcClause

/-!
# Atom patterns

A pattern is a value with variable placeholders. A record in a pattern lists its members as
they are entered, which is the order they are matched in; an atom is a value like any other.
Variables bind to atoms, and a variable that occurs again has to match what it is bound to.
-/

namespace Cfc

abbrev AtomPattern := FabricValue

/-- Variables with the atoms they are bound to. -/
abbrev AtomPatternBindings := Members

/-- The own members of what `isObjectNotArray` holds of. -/
def objectMembers? : FabricValue → Option Members
  | .record fields => some fields
  | .special _ _ => some []
  | _ => none

def arraySlots? : FabricValue → Option (List (Option FabricValue))
  | .array slots => some slots
  | _ => none

/-- The variable of a placeholder. -/
def atomVarPlaceholder? : FabricValue → Option JsString
  | .record [(key, .string name)] => if key = "var" ∧ name.units ≠ [] then some name else none
  | _ => none

def isMalformedVarBearingRecord : FabricValue → Bool
  | .record fields =>
    (Fields.get? fields "var").isSome && (atomVarPlaceholder? (.record fields)).isNone
  | _ => false

mutual
/-- Without placeholders, and without fields that have to be absent. -/
def patternIsConcrete : AtomPattern → Bool
  | .array slots => slotsAreConcrete slots
  | .record fields => (Fields.get? fields "var").isNone && fieldsAreConcrete fields
  | _ => true

def slotsAreConcrete : List (Option AtomPattern) → Bool
  | [] => true
  | none :: slots => slotsAreConcrete slots
  | some pattern :: slots => patternIsConcrete pattern && slotsAreConcrete slots

def fieldsAreConcrete : Members → Bool
  | [] => true
  | (_, pattern) :: fields =>
    pattern ≠ .undefined && patternIsConcrete pattern && fieldsAreConcrete fields
end

section Matching

variable (hashStringOf : FabricValue → JsString)

/-- What `commitmentAwareEquals` does before it compares part by part. -/
def commitmentOr (a b : FabricValue) (byParts : Bool) : Bool :=
  if sameValue a b then true
  else
    match fieldCommitment? a, fieldCommitment? b with
    | some digestOf, none => hashStringOf (keySorted b) = digestOf
    | none, some digestOf => hashStringOf (keySorted a) = digestOf
    | some _, some _ => false
    | none, none => byParts

mutual
/-- Equality where a commitment equals what it commits to. -/
def commitmentAwareEquals : FabricValue → FabricValue → Bool
  | .array slots, b => commitmentOr hashStringOf (.array slots) b <|
    match b with
    | .array others => slots.length = others.length && slotsAwareEqual slots others
    | _ => false
  | .record fields, b => commitmentOr hashStringOf (.record fields) b <|
    match b with
    | .record others => fields.length = others.length && fieldsAwareEqual fields others
    | _ => false
  | a, b => commitmentOr hashStringOf a b false

def slotsAwareEqual : List (Option FabricValue) → List (Option FabricValue) → Bool
  -- A hole of the first array is not visited.
  | none :: slots, _ :: others => slotsAwareEqual slots others
  | some a :: slots, b :: others =>
    commitmentAwareEquals a (b.getD .undefined) && slotsAwareEqual slots others
  | _, _ => true

def fieldsAwareEqual : Members → Members → Bool
  | [], _ => true
  | (key, a) :: fields, others =>
    (match Fields.get? others key with
      | some b => commitmentAwareEquals a b
      | none => false) && fieldsAwareEqual fields others
end

/-- What `matchPatternValue` decides before it looks at the parts of the pattern. -/
def matchGuarded (pattern : AtomPattern) (value : FabricValue) (bindings : AtomPatternBindings)
    (byParts : Option AtomPatternBindings) : Option AtomPatternBindings :=
  if isMalformedVarBearingRecord value then none
  else
    match atomVarPlaceholder? pattern with
    | some name =>
      match Fields.get? bindings name with
      | some bound => if commitmentAwareEquals hashStringOf bound value then some bindings else none
      | none =>
        -- The plaintext under a commitment is not known, so no variable takes one.
        if isCfcFieldCommitment value then none else some (Fields.set bindings name value)
    | none =>
      if isMalformedVarBearingRecord pattern then none
      else if isCfcFieldCommitment pattern then
        if commitmentAwareEquals hashStringOf pattern value then some bindings else none
      else if isCfcFieldCommitment value then
        if patternIsConcrete pattern && commitmentAwareEquals hashStringOf pattern value then
          some bindings
        else none
      else byParts

def matchLeaf (pattern : AtomPattern) (value : FabricValue) (bindings : AtomPatternBindings) :
    Option AtomPatternBindings :=
  matchGuarded hashStringOf pattern value bindings
    (if sameValue pattern value then some bindings else none)

mutual
def matchPatternValue : AtomPattern → FabricValue → AtomPatternBindings →
    Option AtomPatternBindings
  | .array slots, value, bindings => matchGuarded hashStringOf (.array slots) value bindings <|
    match arraySlots? value with
    | some values =>
      if values.length = slots.length then matchSlots slots values bindings else none
    | none => none
  | .record fields, value, bindings => matchGuarded hashStringOf (.record fields) value bindings <|
    match objectMembers? value with
    | some members => matchFields fields members bindings
    | none => none
  | pattern, value, bindings => matchLeaf hashStringOf pattern value bindings
termination_by structural pattern => pattern

def matchSlots : List (Option AtomPattern) → List (Option FabricValue) → AtomPatternBindings →
    Option AtomPatternBindings
  | none :: slots, value :: values, bindings =>
    match matchLeaf hashStringOf .undefined (value.getD .undefined) bindings with
    | some current => matchSlots slots values current
    | none => none
  | some pattern :: slots, value :: values, bindings =>
    match matchPatternValue pattern (value.getD .undefined) bindings with
    | some current => matchSlots slots values current
    | none => none
  | _, _, bindings => some bindings
termination_by structural slots => slots

def matchFields : Members → Members → AtomPatternBindings → Option AtomPatternBindings
  | [], _, bindings => some bindings
  | (key, pattern) :: fields, members, bindings =>
    match Fields.get? members key with
    | none => if pattern = .undefined then matchFields fields members bindings else none
    | some value =>
      -- A field whose pattern is `undefined` has to be absent.
      if pattern = .undefined then none
      else
        match matchPatternValue pattern value bindings with
        | some current => matchFields fields members current
        | none => none
termination_by structural fields => fields
end

/-- `matchAtomPattern`, under no bindings unless some are given. -/
def matchAtomPattern (pattern : AtomPattern) (atom : FabricValue)
    (bindings : AtomPatternBindings) : Option AtomPatternBindings :=
  matchPatternValue hashStringOf pattern atom bindings

def pushUniqueBindings (collected : List AtomPatternBindings) (candidate : AtomPatternBindings) :
    List AtomPatternBindings :=
  if candidate ∈ collected then collected else collected ++ [candidate]

/-- Every atom that matches, each with its own extended bindings. -/
def matchAtomPatternAgainstAtoms (pattern : AtomPattern) (atoms : List FabricValue)
    (bindings : AtomPatternBindings) : List AtomPatternBindings :=
  (atoms.filterMap fun atom => matchAtomPattern hashStringOf pattern atom bindings).foldl
    pushUniqueBindings []

end Matching

mutual
/-- `instantiateAtomPattern`. -/
def instantiateAtomPattern : AtomPattern → AtomPatternBindings → Option FabricValue
  | .array slots, bindings => (instantiateSlots slots bindings).map .array
  | .record fields, bindings =>
    match atomVarPlaceholder? (.record fields) with
    | some name => (Fields.get? bindings name).filter (· ≠ .undefined)
    | none =>
      if isMalformedVarBearingRecord (.record fields) then none
      else (instantiateFields fields bindings).map .record
  | pattern, _ => some pattern

def instantiateSlots : List (Option AtomPattern) → AtomPatternBindings →
    Option (List (Option FabricValue))
  | [], _ => some []
  | none :: slots, bindings => (instantiateSlots slots bindings).map (some .undefined :: ·)
  | some pattern :: slots, bindings =>
    match instantiateAtomPattern pattern bindings with
    | some value => (instantiateSlots slots bindings).map (some value :: ·)
    | none => none

def instantiateFields : Members → AtomPatternBindings → Option Members
  | [], _ => some []
  | (key, pattern) :: fields, bindings =>
    if pattern = .undefined then instantiateFields fields bindings
    else
      match instantiateAtomPattern pattern bindings with
      | some value => (instantiateFields fields bindings).map (Fields.set · key value)
      | none => none
end

/-- What is bound stays bound to the same. -/
def Grows (bindings extended : AtomPatternBindings) : Prop :=
  ∀ name value, Fields.get? bindings name = some value → Fields.get? extended name = some value

theorem Grows.refl (bindings : AtomPatternBindings) : Grows bindings bindings := fun _ _ h => h

theorem Grows.trans {a b c : AtomPatternBindings} (hab : Grows a b) (hbc : Grows b c) :
    Grows a c := fun name value h => hbc name value (hab name value h)

theorem grows_set {bindings : AtomPatternBindings} {name : JsString}
    (h : Fields.get? bindings name = none) (value : FabricValue) :
    Grows bindings (Fields.set bindings name value) := by
  intro other v hother
  rw [Fields.get?_set]
  split
  case isTrue hname =>
    rw [hname, hother] at h
    cases h
  case isFalse => exact hother

section

variable {hashStringOf : FabricValue → JsString}

theorem mem_foldl_pushUniqueBindings (found collected : List AtomPatternBindings)
    (bindings : AtomPatternBindings) :
    bindings ∈ found.foldl pushUniqueBindings collected ↔
      bindings ∈ collected ∨ bindings ∈ found := by
  induction found generalizing collected with
  | nil => simp
  | cons candidate found ih =>
    rw [List.foldl_cons, ih, List.mem_cons, pushUniqueBindings]
    split
    case isTrue hmem =>
      constructor
      · rintro (h | h)
        · exact .inl h
        · exact .inr (.inr h)
      · rintro (h | rfl | h)
        · exact .inl h
        · exact .inl hmem
        · exact .inr h
    case isFalse => rw [List.mem_append, List.mem_singleton, or_assoc]

/-- The environments a pool yields are those of its atoms that match. -/
theorem mem_matchAtomPatternAgainstAtoms {pattern : AtomPattern} {atoms : List FabricValue}
    {bindings extended : AtomPatternBindings} :
    extended ∈ matchAtomPatternAgainstAtoms hashStringOf pattern atoms bindings ↔
      ∃ atom ∈ atoms, matchAtomPattern hashStringOf pattern atom bindings = some extended := by
  rw [matchAtomPatternAgainstAtoms, mem_foldl_pushUniqueBindings, List.mem_filterMap]
  simp

end

end Cfc
