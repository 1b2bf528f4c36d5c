import CommonFabric.CommittedClauses

/-!
# The persisted form of a label

A table says which fields of which atoms are persisted as commitments. The transform that
persists a label in another space walks a value and commits those fields.
-/

namespace Cfc

inductive LabelFieldRepresentationClass where
  /-- `public`: as it is. -/
  | verbatim
  | commitment
  | reference
  deriving DecidableEq

inductive LabelAtomFamily where
  | type (type : JsString)
  | kind (kind : JsString)

/-- `CFC_ATOM_TYPE`, of an atom's name. -/
def cfcAtomType (name : JsString) : JsString :=
  ("https://commonfabric.org/cfc/atom/" : JsString).append name

/-- The family, the path of a field inside the atom, and the class of the field. -/
def LABEL_FIELD_CLASSIFICATION :
    List (LabelAtomFamily × List JsString × LabelFieldRepresentationClass) :=
  [(.type (cfcAtomType "Caveat"), ["source"], .commitment),
    (.type USER_TYPE, ["subject"], .commitment),
    (.type PERSONAL_SPACE_TYPE, ["owner"], .commitment),
    (.type (cfcAtomType "Space"), ["id"], .verbatim),
    (.type (cfcAtomType "Policy"), ["name"], .verbatim),
    (.type (cfcAtomType "Policy"), ["hash"], .verbatim),
    (.type (cfcAtomType "Policy"), ["policyRefKind"], .verbatim),
    (.type (cfcAtomType "Policy"), ["moduleIdentity"], .verbatim),
    (.type (cfcAtomType "Policy"), ["symbol"], .verbatim),
    (.type (cfcAtomType "Policy"), ["policyDigest"], .verbatim),
    (.type (cfcAtomType "Policy"), ["subject"], .commitment),
    (.type (cfcAtomType "Context"), ["name"], .verbatim),
    (.type (cfcAtomType "Context"), ["hash"], .verbatim),
    (.type (cfcAtomType "Context"), ["subject"], .commitment),
    (.type (cfcAtomType "LinkReference"), ["source"], .commitment),
    (.type (cfcAtomType "LinkReference"), ["target"], .commitment),
    (.type (cfcAtomType "TransformedBy"), ["identity", "sourceFile"], .commitment),
    (.type (cfcAtomType "TransformedBy"), ["identity", "bindingPath"], .commitment),
    (.type (cfcAtomType "TransformedBy"), ["identity", "moduleIdentity"], .verbatim),
    (.kind "authored-by", ["subject"], .verbatim),
    (.kind "represents-principal", ["subject"], .verbatim),
    (.type (cfcAtomType "HasRole"), ["principal"], .commitment),
    (.type (cfcAtomType "HasRole"), ["space"], .commitment),
    (.type (cfcAtomType "UserSurfaceInput"), ["user"], .commitment),
    (.type (cfcAtomType "ExternalIngest"), ["audience"], .commitment)]

def familyKey : LabelAtomFamily → JsString
  | .type type => ("type:" : JsString).append type
  | .kind kind => ("kind:" : JsString).append kind

/-- The family and the field path, joined by NUL. -/
def lookupKey (family : LabelAtomFamily) (field : List JsString) : JsString :=
  ⟨(familyKey family).units ++ 0 :: List.intercalate [0] (field.map (·.units))⟩

def classifyLabelField (family : LabelAtomFamily) (field : List JsString) :
    Option LabelFieldRepresentationClass :=
  (LABEL_FIELD_CLASSIFICATION.find? fun row =>
    lookupKey row.1 row.2.1 = lookupKey family field).map (·.2.2)

/-- The kinds of the families that the table classifies. -/
def CLASSIFIED_KIND_FAMILIES : List JsString :=
  LABEL_FIELD_CLASSIFICATION.filterMap fun row =>
    match row.1 with
    | .kind kind => some kind
    | .type _ => none

/-- `classifyAtomField`, of a record by its members. -/
def classifyAtomField (atom : Members) (field : List JsString) :
    Option LabelFieldRepresentationClass :=
  match Fields.get? atom "type" with
  | some (.string type) => classifyLabelField (.type type) field
  | _ =>
    match Fields.get? atom "kind" with
    | some (.string kind) => classifyLabelField (.kind kind) field
    | _ => none

/-- A record that is an atom of its own, in whose fields the table is looked up afresh. -/
def resetsContext (fields : Members) : Bool :=
  match Fields.get? fields "type" with
  | some (.string _) => true
  | _ =>
    match Fields.get? fields "kind" with
    | some (.string kind) => CLASSIFIED_KIND_FAMILIES.contains kind
    | _ => false

section

variable (hashStringOf : FabricValue → JsString)

mutual
def transformValue : FabricValue → Option Members → List JsString → FabricValue
  | .array slots, contextAtom, pathInAtom => .array (transformSlots slots contextAtom pathInAtom)
  | .record fields, contextAtom, pathInAtom =>
    if isCfcFieldCommitment (.record fields) then .record fields
    else if resetsContext fields then .record (transformFields fields (some fields) [])
    else .record (transformFields fields contextAtom pathInAtom)
  | value, _, _ => value

def transformSlots : List (Option FabricValue) → Option Members → List JsString →
    List (Option FabricValue)
  | [], _, _ => []
  | none :: slots, contextAtom, pathInAtom => none :: transformSlots slots contextAtom pathInAtom
  | some value :: slots, contextAtom, pathInAtom =>
    some (transformValue value contextAtom pathInAtom) :: transformSlots slots contextAtom pathInAtom

def transformFields : Members → Option Members → List JsString → Members
  | [], _, _ => []
  | (key, field) :: fields, atom, basePath =>
    let fieldPath := basePath ++ [key]
    let next := match atom.bind (classifyAtomField · fieldPath) with
      | some .commitment =>
        if isCfcFieldCommitment field then field else commitCfcFieldValue hashStringOf field
      | some .verbatim => field
      | _ => transformValue field atom fieldPath
    (key, next) :: transformFields fields atom basePath
end

/-- `transformCfcLabelForCrossSpacePersist`, of one clause of a label's confidentiality. -/
def transformClause (clause : FabricValue) : FabricValue :=
  transformValue hashStringOf clause none []

variable {hashStringOf}

mutual
/-- What is persisted is a committed form of the value. -/
theorem transformValue_form : (v : FabricValue) → (contextAtom : Option Members) →
    (path : List JsString) →
    CommittedForm hashStringOf v (transformValue hashStringOf v contextAtom path)
  | .array slots, contextAtom, path => by
    obtain ⟨hshape, hparts⟩ := transformSlots_form slots contextAtom path
    rw [transformValue]
    refine .array hshape fun x y hxy => ?_
    cases hxy with
    | slot hx hy => exact hparts _ x y hx hy
  | .record fields, contextAtom, path => by
    rw [transformValue]
    have hrecord : ∀ atom basePath, fieldCommitment? (.record fields) = none →
        CommittedForm hashStringOf (.record fields)
          (.record (transformFields hashStringOf fields atom basePath)) := by
      intro atom basePath hnone
      obtain ⟨hshape, hparts⟩ := transformFields_form fields atom basePath
      refine .record hshape hnone fun x y hxy => ?_
      cases hxy with
      | field hx hy => exact hparts _ x y hx hy
    split
    · exact .same _
    · rename_i hnot
      have hnone : fieldCommitment? (.record fields) = none := by
        simpa [isCfcFieldCommitment] using hnot
      split
      · exact hrecord _ _ hnone
      · exact hrecord _ _ hnone
  | .undefined, _, _ => .same _
  | .null, _, _ => .same _
  | .bool _, _, _ => .same _
  | .number _, _, _ => .same _
  | .string _, _, _ => .same _
  | .bigint _, _, _ => .same _
  | .symbol _, _, _ => .same _
  | .special _ _, _, _ => .same _

theorem transformSlots_form : (slots : List (Option FabricValue)) →
    (contextAtom : Option Members) → (path : List JsString) →
    slots.map Option.isSome =
        (transformSlots hashStringOf slots contextAtom path).map Option.isSome ∧
      ∀ (i : Nat) (x y : FabricValue), slots[i]? = some (some x) →
        (transformSlots hashStringOf slots contextAtom path)[i]? = some (some y) →
        CommittedForm hashStringOf x y
  | [], _, _ => ⟨rfl, fun i x y hx _ => by cases hx⟩
  | none :: slots, contextAtom, path => by
    obtain ⟨hshape, hparts⟩ := transformSlots_form slots contextAtom path
    rw [transformSlots]
    refine ⟨by rw [List.map_cons, List.map_cons, hshape], fun i x y hx hy => ?_⟩
    cases i with
    | zero => cases hx
    | succ i => exact hparts i x y hx hy
  | some value :: slots, contextAtom, path => by
    obtain ⟨hshape, hparts⟩ := transformSlots_form slots contextAtom path
    have hvalue := transformValue_form value contextAtom path
    rw [transformSlots]
    refine ⟨by rw [List.map_cons, List.map_cons, hshape]; rfl, fun i x y hx hy => ?_⟩
    cases i with
    | zero =>
      cases hx
      cases hy
      exact hvalue
    | succ i => exact hparts i x y hx hy

theorem transformFields_form : (fields : Members) → (atom : Option Members) →
    (basePath : List JsString) →
    fields.map (·.1) = (transformFields hashStringOf fields atom basePath).map (·.1) ∧
      ∀ (key : JsString) (x y : FabricValue), Fields.get? fields key = some x →
        Fields.get? (transformFields hashStringOf fields atom basePath) key = some y →
        CommittedForm hashStringOf x y
  | [], _, _ => ⟨rfl, fun _ _ _ hx _ => by cases hx⟩
  | (name, field) :: fields, atom, basePath => by
    obtain ⟨hshape, hparts⟩ := transformFields_form fields atom basePath
    have hfield := transformValue_form field atom (basePath ++ [name])
    rw [transformFields]
    refine ⟨by rw [List.map_cons, List.map_cons, hshape], fun key x y hx hy => ?_⟩
    rw [Fields.get?_cons] at hx hy
    split at hx
    · rw [if_pos ‹_›] at hy
      rw [← Option.some.inj hx, ← Option.some.inj hy]
      split
      · split
        · exact .same field
        · rename_i hnot
          exact .committed (by simpa [isCfcFieldCommitment] using hnot)
      · exact .same field
      · exact hfield
    · rw [if_neg ‹_›] at hy
      exact hparts key x y hx hy
end

theorem orAlternatives?_eq_some {v : FabricValue} {slots : List (Option FabricValue)} :
    orAlternatives? v = some slots ↔ v = .record [("anyOf", .array slots)] := by
  constructor
  · intro h
    unfold orAlternatives? at h
    split at h
    · rename_i key slots
      split at h
      · rename_i hkey
        rw [hkey, Option.some.inj h]
      · cases h
    · cases h
  · rintro rfl
    simp [orAlternatives?]

/-- A committed form is an alternation only of an alternation. -/
theorem orAlternatives?_of_form {v w : FabricValue} (h : CommittedForm hashStringOf v w)
    (hv : orAlternatives? v = none) : orAlternatives? w = none := by
  rw [Option.eq_none_iff_forall_ne_some]
  intro slots hslots
  obtain rfl := orAlternatives?_eq_some.1 hslots
  cases h with
  | same => rw [hslots] at hv; cases hv
  | @record f g hshape _ hparts =>
    obtain ⟨⟨key, held⟩, rfl⟩ := List.length_eq_one_iff.1
      (by simpa using congrArg List.length hshape : f.length = 1)
    obtain rfl : key = "anyOf" := (List.cons.inj hshape).1
    have hget : ∀ v, Fields.get? ([("anyOf", v)] : Members) "anyOf" = some v := fun v => by
      rw [Fields.get?_cons, if_pos rfl]
    have hheld := hparts held (.array slots) (.field (hget held) (hget _))
    have harray : ∃ slots', held = .array slots' := by
      cases hheld with
      | same => exact ⟨slots, rfl⟩
      | @array slots' => exact ⟨slots', rfl⟩
    obtain ⟨slots', rfl⟩ := harray
    rw [orAlternatives?_eq_some.2 rfl] at hv
    cases hv

theorem transformSlots_alternatives (slots : List (Option FabricValue))
    (contextAtom : Option Members) (path : List JsString) :
    List.Forall₂ (Option.Rel (CommittedForm hashStringOf)) slots
      (transformSlots hashStringOf slots contextAtom path) := by
  induction slots with
  | nil => exact .nil
  | cons slot slots ih =>
    cases slot with
    | none => exact .cons .none ih
    | some value => exact .cons (.some (transformValue_form value contextAtom path)) ih

/-- Each alternative of a clause is persisted as one of its committed forms. -/
theorem transformClause_committed (clause : FabricValue) :
    CommittedClause hashStringOf clause (transformClause hashStringOf clause) := by
  rw [CommittedClause]
  cases hor : orAlternatives? clause with
  | none =>
    have hform : CommittedForm hashStringOf clause (transformValue hashStringOf clause none []) :=
      transformValue_form clause none []
    rw [clauseAlternatives, hor, clauseAlternatives, transformClause,
      orAlternatives?_of_form hform hor]
    exact .cons (.some hform) .nil
  | some slots =>
    obtain rfl := orAlternatives?_eq_some.1 hor
    have htransformed : transformClause hashStringOf (.record [("anyOf", .array slots)]) =
        .record [("anyOf", .array (transformSlots hashStringOf slots none ["anyOf"]))] := by
      rw [transformClause, transformValue]
      have hnot : isCfcFieldCommitment (.record [("anyOf", .array slots)]) = false := by
        simp [isCfcFieldCommitment, fieldCommitment?]
      have hcontext : resetsContext [("anyOf", .array slots)] = false := by
        rfl
      rw [hnot, hcontext, if_neg (by decide), if_neg (by decide)]
      simp [transformFields, transformValue]
    rw [clauseAlternatives, hor, clauseAlternatives, htransformed,
      orAlternatives?_eq_some.2 rfl]
    exact transformSlots_alternatives slots none ["anyOf"]

end

/-- Subsumption of clauses is a preorder: it does not depend on how the alternatives are listed,
and committing fields lets nothing pass that the plaintexts do not. -/
theorem clauseSubsumes_preorder (hashStringOf : FabricValue → JsString) :
    (∀ a, clauseAlternatives a ≠ [] → clauseSubsumes hashStringOf a a = true) ∧
      (∀ a b c, DenseClause a → DenseClause b → DenseClause c →
        LevelClauses a b → LevelClauses b c → LevelClauses a c →
        DigestsDiffer hashStringOf (clauseParts a ++ clauseParts b ++ clauseParts c) →
        (∀ x ∈ visitedAlternatives a, ¬Disguised hashStringOf x) →
        (∀ z ∈ visitedAlternatives c, ¬Disguised hashStringOf z) →
        clauseSubsumes hashStringOf a b = true → clauseSubsumes hashStringOf b c = true →
        clauseSubsumes hashStringOf a c = true) ∧
      (∀ a b, NoHoles a → clauseSubsumes hashStringOf (normalizeClause hashStringOf a) b =
        clauseSubsumes hashStringOf a b) ∧
      (∀ a b, NoHoles b → clauseSubsumes hashStringOf a (normalizeClause hashStringOf b) =
        clauseSubsumes hashStringOf a b) ∧
      (∀ a a' b b', (clauseAlternatives a = [] ↔ clauseAlternatives a' = []) →
        DenseClause a → DenseClause a' → DenseClause b → DenseClause b' →
        SameAlternatives a a' → SameAlternatives b b' →
        clauseSubsumes hashStringOf a b = clauseSubsumes hashStringOf a' b') ∧
      (∀ a a' c c', DenseClause a → DenseClause c → PlainClause a → PlainClause c →
        CommittedClause hashStringOf a a' → CommittedClause hashStringOf c c' →
        (∀ z ∈ visitedAlternatives c, OwnedByDID z) →
        DigestsDiffer hashStringOf
          (clauseParts a ++ clauseParts a' ++ (clauseParts c ++ clauseParts c')) →
        clauseSubsumes hashStringOf a' c' = true → clauseSubsumes hashStringOf a c = true) ∧
      (∀ clause, CommittedClause hashStringOf clause (transformClause hashStringOf clause)) ∧
      ∀ a b, NoHoles a → clauseAlternatives a = [] ∨ clauseAlternatives b = [] →
        clauseSubsumes hashStringOf a b = false :=
  ⟨fun _ => clauseSubsumes_refl,
    fun _ _ _ ha hb hc hab hbc hac hdigests hna hnc =>
      clauseSubsumes_trans ha hb hc hab hbc hac hdigests hna hnc,
    fun _ _ => clauseSubsumes_normalize_left,
    fun _ _ => clauseSubsumes_normalize_right,
    fun _ _ _ _ hempty ha ha' hb hb' haa hbb =>
      clauseSubsumes_sameAlternatives hempty ha ha' hb hb' haa hbb,
    fun _ _ _ _ ha hc haplain hcplain haa hcc howned hdigests =>
      clauseSubsumes_of_committed ha hc haplain hcplain haa hcc howned hdigests,
    transformClause_committed,
    fun _ _ => clauseSubsumes_empty⟩

/-- A digest that tells the given values apart, by where they first stand. -/
def digestAmong (values : List FabricValue) (v : FabricValue) : JsString :=
  ⟨[(values.idxOf v).toUInt16]⟩

/-- `Caveat(source)`. -/
def caveatAtom (source : FabricValue) : FabricValue :=
  .record [("source", source), ("type", .string (cfcAtomType "Caveat"))]

/-- `PersonalSpace(owner)`. -/
def personalSpaceAtom (owner : FabricValue) : FabricValue :=
  .record [("owner", owner), ("type", .string PERSONAL_SPACE_TYPE)]

/-- What a user subsumes through the commitment of its DID. -/
theorem clauseSubsumes_preorder_user :
    let bob : FabricValue := .string "did:key:bob"
    let committed := userAtom (fieldCommitment ⟨[0]⟩)
    let values := [bob, userAtom bob, personalSpaceAtom bob, .string USER_TYPE,
      .string PERSONAL_SPACE_TYPE, .string ⟨[0]⟩, fieldCommitment ⟨[0]⟩, committed]
    clauseSubsumes (digestAmong values) (userAtom bob) committed = true ∧
      clauseSubsumes (digestAmong values) (userAtom bob) (personalSpaceAtom bob) = true := by
  intro bob committed values
  have hfirst : clauseSubsumes (digestAmong values) (userAtom bob) committed = true := by
    decide +kernel
  have hplain : ∀ u ∈ clauseReadings (userAtom bob), containsCfcFieldCommitment u = false := by
    decide +kernel
  have hplain' : ∀ u ∈ clauseReadings (personalSpaceAtom bob),
      containsCfcFieldCommitment u = false := by
    decide +kernel
  have hone : ∀ x ∈ visitedAlternatives (userAtom bob), isRead x = false ∧ x = userAtom bob := by
    decide +kernel
  have hread : ∀ z ∈ visitedAlternatives (personalSpaceAtom bob), isRead z = true := by
    decide +kernel
  refine ⟨hfirst, (clauseSubsumes_preorder (digestAmong values)).2.1 (userAtom bob) committed
    (personalSpaceAtom bob) (by unfold DenseClause; decide +kernel)
    (by unfold DenseClause; decide +kernel) (by unfold DenseClause; decide +kernel)
    (fun u hu _ _ => level_of_plain (hplain u hu))
    (fun _ _ v hv => (level_of_plain (hplain' v hv)).symm)
    (fun u hu _ _ => level_of_plain (hplain u hu)) (by decide +kernel) (fun x hx => ?_)
    (fun z hz hdisguised => ?_) hfirst (by decide +kernel)⟩
  · rw [(hone x hx).2]
    exact not_disguised_userAtom rfl
  · have hnot := hdisguised.1
    rw [hread z hz] at hnot
    cases hnot

/-- The atoms and parts of the example below, whose digests are all different. -/
def sampleValues : List FabricValue :=
  let bob : FabricValue := .string "bob"
  let commitments := [fieldCommitment ⟨[0]⟩, fieldCommitment ⟨[1]⟩]
  [userAtom bob, bob, caveatAtom (userAtom bob), personalSpaceAtom bob,
    .string USER_TYPE, .string PERSONAL_SPACE_TYPE, .string (cfcAtomType "Caveat"),
    .string ⟨[0]⟩, .string ⟨[1]⟩] ++ commitments ++ commitments.map userAtom ++
    commitments.map caveatAtom ++ commitments.map personalSpaceAtom ++
    commitments.map fun commitment => caveatAtom (userAtom commitment)

/-- A caveat that commits its whole source subsumes one in plain, which subsumes one that commits
the subject of its source; the first does not subsume the last. And a user subsumes a personal
space of no DID once its owner is committed. A hole of an alternation asks for nothing, and is
listed as `undefined` in its canonical form. -/
theorem commitments_compare_at_one_depth :
    let digest := digestAmong sampleValues
    let user := userAtom (.string "bob")
    let whole := transformClause digest (caveatAtom user)
    let nested := caveatAtom (transformClause digest user)
    let space := personalSpaceAtom (.string "bob")
    let holed : FabricValue := .record [("anyOf", .array [none, some user])]
    DigestsDiffer digest (clauseParts whole ++ clauseParts (caveatAtom user) ++ clauseParts nested ++
        clauseParts user ++ clauseParts space ++ clauseParts (transformClause digest space)) ∧
      clauseSubsumes digest whole (caveatAtom user) = true ∧
      clauseSubsumes digest (caveatAtom user) nested = true ∧
      clauseSubsumes digest whole nested = false ∧
      clauseSubsumes digest user space = false ∧
      clauseSubsumes digest user (transformClause digest space) = true ∧
      clauseSubsumes digest holed user = true ∧
      clauseSubsumes digest (normalizeClause digest holed) user = false ∧
      clauseSubsumes digest (.record [("anyOf", .array [none])]) (orClause []) = true := by
  decide +kernel

end Cfc
