import CommonFabric.KeySort
import CommonFabric.LabelView
import CommonFabric.SchedulerKeys

/-!
# The digest of a prepared transaction

A transaction's boundary verification is bound to what it ran over: the reads, the writes, the
policy records and the rest, hashed in a canonical form. The canonical form sorts each list by a
key of its own, so that the order in which records were made does not count; three of the lists are
sets, of which it keeps each member once.
-/

namespace Cfc

open KeySort

structure CfcAddress where
  space : JsString
  id : EntityId
  scope : CellScope
  path : ValuePath
  deriving DecidableEq

/-- `path`, in the payload, or `metaPath`, of one of the document's own members. -/
inductive RecordPath where
  | payload (path : ValuePath)
  | member (metaPath : ValuePath)
  deriving DecidableEq

structure CfcRecordAddress where
  space : JsString
  id : EntityId
  scope : CellScope
  path : RecordPath
  deriving DecidableEq

structure ConsumedRead where
  address : CfcRecordAddress
  metadata : Option FabricValue
  nonRecursive : Option Bool
  journalIndex : Option ℕ
  deriving DecidableEq

/-- A write of the journal, with its path as it is stored. -/
structure OrderedWriteAttempt where
  space : JsString
  id : EntityId
  scope : CellScope
  path : ValuePath
  journalIndex : ℕ
  deriving DecidableEq

inductive DereferenceKind where
  | value
  | writeRedirect
  deriving DecidableEq

structure CfcDereferenceTrace where
  source : CfcAddress
  target : CfcAddress
  kind : DereferenceKind
  deriving DecidableEq

/-- An observation of label metadata; its class is always `labelMetadata`. -/
structure CfcLabelMetadataObservation where
  target : CfcAddress
  confidentiality : List FabricValue
  deriving DecidableEq

inductive ImplementationIdentity where
  | builtin (builtinId : JsString) (instanceId : Option JsString)
  | verified (moduleIdentity symbol sourceFile : Option JsString)
      (bindingPath : Option (List JsString)) (codeHash : Option JsString)
  | unsupported (className reason : JsString)
  deriving DecidableEq

structure TrustSnapshot where
  id : JsString
  actingPrincipal : Option JsString
  revision : Option JsString
  deriving DecidableEq

structure ModuleDelegationSnapshotEntry where
  space : JsString
  moduleIdentity : JsString
  delegatedModuleIdentities : List JsString
  deriving DecidableEq

inductive InitializationMode where
  | seed
  | default
  | projection
  | capture
  | binding
  | replay
  deriving DecidableEq

inductive WritePolicyInput where
  | preservedOutput (target : CfcAddress) (value : FabricValue)
  | releaseProgram (target : CfcAddress) (modules : List JsString)
  | resultWiring (target : CfcAddress) (buildDecided : Bool) (setupBegan : ℕ)
  | policyApplication (target : CfcAddress)
  | ownerAdoption (target : CfcAddress) (value : FabricValue) (owner : JsString)
  | initialization (target : CfcAddress) (value : FabricValue) (mode : InitializationMode)
  | schema (target : CfcAddress) (schemaHash : Option JsString) (schema : Option FabricValue)
      (output storedSchema : Bool)
  | structuralProvenance (target : CfcAddress) (claim : JsString) (sources : List CfcAddress)
  | trustedEvent (target : CfcAddress) (eventId : JsString) (provenance : Option FabricValue)
  | linkWrite (target source : CfcAddress) (linkSchema : Option FabricValue)
      (cfcLabelView : Option CfcLabelView)
  | sinkRequest (effectId sink : JsString) (request : FabricValue)
  | custom (target : Option CfcAddress) (name : JsString) (value : FabricValue)
  deriving DecidableEq

structure ConsultedGrant where
  space : JsString
  id : EntityId
  digest : JsString
  deriving DecidableEq

inductive ManifestState where
  | present
  | absent
  deriving DecidableEq

structure ConsultedPolicyManifest where
  reference : FabricValue
  state : ManifestState
  deriving DecidableEq

structure CfcAssertedValueRoot where
  address : CfcAddress
  identity : Option ImplementationIdentity
  reference : Option CfcAddress
  deriving DecidableEq

structure ConsumedLocation where
  key : JsString
  confidentiality : List FabricValue
  integrity : List FabricValue
  evidence : List FabricValue
  deriving DecidableEq

structure ExternalContentSource where
  atom : FabricValue
  read : CfcAddress
  labelPath : ValuePath
  deriving DecidableEq

structure CfcExternalContentObservation where
  source : CfcAddress
  flow : IFCLabel
  consumed : IFCLabel
  locations : List ConsumedLocation
  labeledSpaces : List JsString
  sources : List ExternalContentSource
  deriving DecidableEq

structure PreparedDigestInput where
  consumedReads : List ConsumedRead
  attemptedWrites : List CfcRecordAddress
  writes : List CfcRecordAddress
  writeAttemptLog : List OrderedWriteAttempt
  dereferenceTraces : List CfcDereferenceTrace
  triggerReads : List CfcAddress
  writePolicyInputs : List WritePolicyInput
  implementationIdentity : Option ImplementationIdentity
  trustSnapshot : Option TrustSnapshot
  moduleDelegations : Option (List ModuleDelegationSnapshotEntry)
  policySnapshot : Option JsString
  consultedGrants : Option (List ConsultedGrant)
  consultedPolicyManifests : Option (List ConsultedPolicyManifest)
  labelMetadataObservations : Option (List CfcLabelMetadataObservation)
  externalContentObservations : Option (List CfcExternalContentObservation)
  assertedValueRoots : Option (List CfcAssertedValueRoot)
  structureContainers : Option (List CfcAddress)
  deriving DecidableEq

/-- What `hashStringOf` is asked to hash. -/
inductive HashSubject where
  | value (value : FabricValue)
  | policyInput (input : WritePolicyInput)
  | labelObservation (observation : CfcLabelMetadataObservation)
  | externalObservation (observation : CfcExternalContentObservation)
  | root (root : CfcAssertedValueRoot)
  | prepared (input : PreparedDigestInput)
  deriving DecidableEq

/-- Texts compared one after another, by the first that differs. -/
def keysLe : List JsString → List JsString → Bool
  | [], _ => true
  | _ :: _, [] => false
  | x :: xs, y :: ys => if x ≠ y then x.lt y else keysLe xs ys

def KeysLe (left right : List JsString) : Prop := keysLe left right = true

instance : DecidableRel KeysLe := fun left right =>
  inferInstanceAs (Decidable (keysLe left right = true))

/-- `compareAddress`, as the texts it compares. -/
def addressKey (address : CfcAddress) : List JsString :=
  [address.space, address.id, Scheduler.scopeName address.scope, Pointer.encodePointer address.path]

/-- `compareRecordAddress`: a record of the payload comes before one of a member. -/
def recordAddressKey (record : CfcRecordAddress) : List JsString :=
  [record.space, record.id, Scheduler.scopeName record.scope] ++
    match record.path with
    | .payload path => ["", Pointer.encodePointer path]
    | .member metaPath => ["meta", Pointer.encodePointer metaPath]

def dereferenceKindText : DereferenceKind → JsString
  | .value => "value"
  | .writeRedirect => "write-redirect"

/-- `compareDereferenceTrace`. -/
def dereferenceTraceKey (trace : CfcDereferenceTrace) : List JsString :=
  addressKey trace.source ++ addressKey trace.target ++ [dereferenceKindText trace.kind]

/-- `compareConsultedGrant`. -/
def consultedGrantKey (grant : ConsultedGrant) : List JsString := [grant.space, grant.id, grant.digest]

def manifestStateText : ManifestState → JsString
  | .present => "present"
  | .absent => "absent"

def moduleDelegationKey (entry : ModuleDelegationSnapshotEntry) : List JsString :=
  [entry.space, entry.moduleIdentity]

namespace WritePolicyInput

def kind : WritePolicyInput → JsString
  | preservedOutput .. => "preserved-output"
  | releaseProgram .. => "release-program"
  | resultWiring .. => "result-wiring"
  | policyApplication .. => "policy-application"
  | ownerAdoption .. => "owner-adoption"
  | initialization .. => "initialization"
  | schema .. => "schema"
  | structuralProvenance .. => "structural-provenance"
  | trustedEvent .. => "trusted-event"
  | linkWrite .. => "link-write"
  | sinkRequest .. => "sink-request"
  | custom .. => "custom"

/-- What records of one kind are compared by before their hashes. -/
def primaryKey : WritePolicyInput → List JsString
  | preservedOutput target _ => addressKey target
  | releaseProgram target _ => addressKey target
  | resultWiring target _ _ => addressKey target
  | policyApplication target => addressKey target
  | ownerAdoption target _ _ => addressKey target
  | initialization target _ _ => addressKey target
  | schema target _ _ _ _ => addressKey target
  | structuralProvenance target _ _ => addressKey target
  | trustedEvent target _ _ => addressKey target
  | linkWrite target _ _ _ => addressKey target
  | sinkRequest effectId _ _ => [effectId]
  | custom _ name _ => [name]

end WritePolicyInput

section Canonical

variable (hashStringOf : HashSubject → JsString)

/-- `compareWritePolicyInput`. -/
def writePolicyInputKey (input : WritePolicyInput) : List JsString :=
  input.kind :: (input.primaryKey ++ [hashStringOf (.policyInput input)])

/-- `compareConsultedPolicyManifest`. -/
def consultedPolicyManifestKey (manifest : ConsultedPolicyManifest) : List JsString :=
  [hashStringOf (.value manifest.reference), manifestStateText manifest.state]

/-- `compareLabelMetadataObservation`. -/
def labelMetadataObservationKey (observation : CfcLabelMetadataObservation) : List JsString :=
  addressKey observation.target ++ [hashStringOf (.labelObservation observation)]

/-- `compareExternalContentObservation`. -/
def externalContentObservationKey (observation : CfcExternalContentObservation) : List JsString :=
  addressKey observation.source ++ [hashStringOf (.externalObservation observation)]

def assertedValueRootKey (root : CfcAssertedValueRoot) : List JsString :=
  addressKey root.address ++ [hashStringOf (.root root)]

/-- The keys that list something, as they are. -/
def cloneCfcLabel (label : IFCLabel) : IFCLabel :=
  ⟨present (labelValues label .confidentiality), present (labelValues label .integrity)⟩

def cloneCfcLabelView (view : Option CfcLabelView) : Option CfcLabelView :=
  viewOf (sortEntries (((entriesOf view).map fun entry =>
    { entry with label := cloneCfcLabel entry.label }).filter
      fun entry => hasCfcLabelValues entry.label))

/-- The alternatives of each clause in their canonical form. -/
def canonicalizeCfcLabel (label : IFCLabel) : IFCLabel :=
  match label.confidentiality with
  | none => label
  | some clauses =>
    if clauses.any isOrClause then
      { label with
        confidentiality := some (clauses.map (normalizeClause fun v => hashStringOf (.value v))) }
    else label

def canonicalLinkEntry (entry : CfcLabelViewEntry) : CfcLabelViewEntry :=
  ⟨entry.path, canonicalizeCfcLabel hashStringOf entry.label, none⟩

/-- A link's label view: its entries by path, without their classes. A view with no label in it
stays as it is. -/
def canonicalLinkView (view : Option CfcLabelView) : Option CfcLabelView :=
  match cloneCfcLabelView view with
  | none => view
  | some cloned => some ⟨cloned.entries.map (canonicalLinkEntry hashStringOf)⟩

/-- The paths of a record are frozen, which leaves the record what it is, and a scope is always
there; what is left to rewrite are the sources of a claim and the view of a link. -/
def canonicalizeWritePolicyInput : WritePolicyInput → WritePolicyInput
  | .structuralProvenance target claim sources =>
    .structuralProvenance target claim (sortBy KeysLe addressKey sources)
  | .linkWrite target source linkSchema cfcLabelView =>
    .linkWrite target source linkSchema (canonicalLinkView hashStringOf cfcLabelView)
  | input => input

def canonicalizeWritePolicyInputs (inputs : List WritePolicyInput) : List WritePolicyInput :=
  sortBy KeysLe (writePolicyInputKey hashStringOf)
    (inputs.map (canonicalizeWritePolicyInput hashStringOf))

def canonicalDelegation (entry : ModuleDelegationSnapshotEntry) : ModuleDelegationSnapshotEntry :=
  { entry with
    delegatedModuleIdentities :=
      sortBy KeysLe (fun s => [s]) entry.delegatedModuleIdentities }

/-- An empty list is left out. -/
def whenAny {α : Type} (canonical : List α → List α) : Option (List α) → Option (List α)
  | none => none
  | some xs => if xs = [] then none else some (canonical xs)

def canonicalRoots (roots : List CfcAssertedValueRoot) : List CfcAssertedValueRoot :=
  dedupeSorted (fun root => hashStringOf (.root root))
    (sortBy KeysLe (assertedValueRootKey hashStringOf) roots)

def canonicalizePreparedDigestInput (input : PreparedDigestInput) : PreparedDigestInput where
  consumedReads := sortBy KeysLe (fun read => recordAddressKey read.address) input.consumedReads
  attemptedWrites := sortBy KeysLe recordAddressKey input.attemptedWrites
  writes := sortBy KeysLe recordAddressKey input.writes
  writeAttemptLog := sortBy (· ≤ ·) (·.journalIndex) input.writeAttemptLog
  triggerReads := sortBy KeysLe addressKey input.triggerReads
  dereferenceTraces := dedupeSorted dereferenceTraceKey
    (sortBy KeysLe dereferenceTraceKey input.dereferenceTraces)
  writePolicyInputs := canonicalizeWritePolicyInputs hashStringOf input.writePolicyInputs
  implementationIdentity := input.implementationIdentity
  trustSnapshot := input.trustSnapshot
  moduleDelegations := whenAny
    (fun entries => sortBy KeysLe moduleDelegationKey (entries.map canonicalDelegation))
    input.moduleDelegations
  policySnapshot := input.policySnapshot
  consultedGrants := whenAny (sortBy KeysLe consultedGrantKey) input.consultedGrants
  consultedPolicyManifests := whenAny
    (sortBy KeysLe (consultedPolicyManifestKey hashStringOf)) input.consultedPolicyManifests
  labelMetadataObservations := whenAny
    (sortBy KeysLe (labelMetadataObservationKey hashStringOf)) input.labelMetadataObservations
  externalContentObservations := whenAny
    (sortBy KeysLe (externalContentObservationKey hashStringOf))
    input.externalContentObservations
  assertedValueRoots := whenAny (canonicalRoots hashStringOf) input.assertedValueRoots
  structureContainers := whenAny
    (fun containers => dedupeSorted addressKey (sortBy KeysLe addressKey containers))
    input.structureContainers

def preparedDigestFor (input : PreparedDigestInput) : JsString :=
  hashStringOf (.prepared (canonicalizePreparedDigestInput hashStringOf input))

end Canonical

end Cfc
