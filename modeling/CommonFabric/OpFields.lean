import CommonFabric.Conflicts

/-!
# The engine's configuration, and the write of one operation

An `Engine` holds what the engine was opened with and what it is told from
outside: intervals, codecs, the lease map. The content hashes and the walks over
schemas are functions of it. A field under `checks` stands for a part of commit
admission that reads the store and can only refuse.
-/

abbrev FieldAnchors := List (JsString × Nat)

/-- A registered codec of collaborative fields; a failure is its description. -/
structure OperationCodec where
  integrate : (materialized submitted : FabricValue) → (intervening : List FabricValue) →
    Except JsString (FabricValue × List FabricValue)
  mapAnchors : FieldAnchors → List FabricValue → Except JsString FabricValue

/-- The content hashes of values and documents. -/
structure Hashing where
  taggedHashStringOf : FabricValue → JsString
  hashStringOf : FabricValue → JsString
  /-- The hash of a value's encoding. -/
  operationBaselineHash : FabricValue → JsString
  commitPreconditionValueHash : FabricValue → JsString
  encodedByteLength : FabricValue → Nat

/-- The walks that find schema references in content. -/
structure SchemaScan where
  isSubschema : FabricValue → Bool
  /-- `collectExternalSchemaRefHashes`. -/
  externalRefHashes : FabricValue → List JsString
  /-- The schemas `mapLinkSchemas` visits. -/
  linkSchemas : FabricValue → List FabricValue
  /-- `schemaMetaRefHashes` of the form `classifySchemaMeta` finds, or why the member
  is malformed. -/
  schemaMetaRefHashes : EntityDocument → Except JsString (List JsString)
  /-- `findNumericLabelField`. -/
  findNumericLabelField : EntityDocument → Option JsString

structure AppliedRevision where
  row : RevisionRow
  /-- Absent for the default scope. -/
  scope : Option CellScope
  derived : Bool
  deriving DecidableEq

/-- The parts of admission that only refuse. -/
structure AdmissionChecks where
  refuseDeletedSpace : Store → Option JsString → Except EngineError Unit
  /-- The owner releases and the declared labels a commit drops. -/
  admitDroppedLabels : Store → ApplyCommitOptions → List Nat → Except EngineError Unit
  validateStoredSyncSchemaRefs : Store → BranchName → List AppliedRevision → ClientCommit →
    Except EngineError Unit
  /-- Executes a statement on an attached database, which holds no table of the store. -/
  applySqliteCommitWrite : Store → SqliteOperation → Except EngineError Unit

structure Engine where
  snapshotInterval : Nat
  snapshotRetention : Nat
  operationCheckpointInterval : Nat
  serverExecution : Bool
  /-- The lease map's holder of a space. -/
  holderOf : JsString → Option JsString
  operationCodecs : JsString → Option OperationCodec
  /-- `Number(text)`, where that is an integer of zero or more. -/
  numberOf : JsString → Option Nat
  /-- The text a template literal makes of a value. -/
  textOf : FabricValue → JsString
  hashing : Hashing
  schemas : SchemaScan
  checks : AdmissionChecks

/-- An engine with no codecs, no leases and no hashes, whose checks refuse nothing. -/
def bareEngine (snapshotInterval snapshotRetention : Nat) : Engine where
  snapshotInterval := snapshotInterval
  snapshotRetention := snapshotRetention
  operationCheckpointInterval := 0
  serverExecution := true
  holderOf _ := none
  operationCodecs _ := none
  numberOf _ := none
  textOf _ := ""
  hashing := ⟨fun _ => "", fun _ => "", fun _ => "", fun _ => "", fun _ => 0⟩
  schemas := ⟨fun _ => false, fun _ => [], fun _ => [], fun _ => .ok [], fun _ => none⟩
  checks := ⟨fun _ _ => .ok (), fun _ _ _ => .ok (), fun _ _ _ _ => .ok (), fun _ _ => .ok ()⟩

/-- A document as an operation writes it. -/
structure DocumentWrite where
  id : EntityId
  scope : Option CellScope
  data : RevisionData
  deriving DecidableEq

/-- The write a `set`, `patch` or `delete` operation is. -/
def Operation.write? : Operation → Option DocumentWrite
  | .set id scope value => some ⟨id, scope, .set value⟩
  | .patch id scope patches => some ⟨id, scope, .patch patches⟩
  | .delete id scope => some ⟨id, scope, .delete⟩
  | _ => none

/-- The key of a write: an explicit one, or its scope's for the identity. -/
def writeScopeKey (scope : Option CellScope) (identity : ScopeKeyIdentity)
    (scopeKeyOverride : Option ScopeKey) : Except EngineError ScopeKey :=
  match scopeKeyOverride with
  | some key => .ok key
  | none => resolveScopeKey scope identity

/-- Where the operation of a commit writes. -/
structure WriteContext where
  branch : BranchName
  seq : Nat
  opIndex : Nat
  identity : ScopeKeyIdentity
  scopeKeyOverride : Option ScopeKey

namespace Store

/-- Inserts a revision row and makes it its instance's head. -/
def writeRow (s : Store) (row : RevisionRow) : Except EngineError Store := do
  let s ← s.insertRevision row
  .ok (s.upsertHead ⟨row.doc, row.seq, row.opIndex, row.data.op⟩)

def writeOperation (s : Store) (ctx : WriteContext) (w : DocumentWrite) :
    Except EngineError (Store × AppliedRevision) := do
  let scopeKey ← writeScopeKey w.scope ctx.identity ctx.scopeKeyOverride
  let row : RevisionRow := ⟨⟨ctx.branch, w.id, scopeKey⟩, ctx.seq, ctx.opIndex, w.data, ctx.seq⟩
  let s ← s.writeRow row
  let scope := normalizeScope w.scope
  .ok (s, ⟨row, if scope = DEFAULT_SCOPE then none else some scope, false⟩)

end Store

def STREAM_ENTRIES_DOC_PREFIX : JsString := "of:stream-events:"
def OP_ANCHORS_DOC_PREFIX : JsString := "of:op-anchors:"

def isStreamEntriesDocId (id : EntityId) : Bool := id.startsWith STREAM_ENTRIES_DOC_PREFIX

def isOperationAnchorsDocId (id : EntityId) : Bool := id.startsWith OP_ANCHORS_DOC_PREFIX

def scopeName : CellScope → JsString
  | .space => "space"
  | .user => "user"
  | .session => "session"

/-- The link a content-derived document id hashes. -/
def linkRecord (id : EntityId) (path : ValuePath) (scope : Option CellScope) : FabricValue :=
  .record [("id", .string id), ("path", .array (path.map fun s => some (.string s))),
    ("scope", .string (scopeName (normalizeScope scope)))]

def streamEntriesDocId (h : Hashing) (id : EntityId) (path : ValuePath)
    (scope : Option CellScope) : EntityId :=
  .append STREAM_ENTRIES_DOC_PREFIX (h.hashStringOf (linkRecord id path scope))

def operationAnchorsDocId (h : Hashing) (id : EntityId) (path : ValuePath)
    (scope : Option CellScope) : EntityId :=
  .append OP_ANCHORS_DOC_PREFIX (h.hashStringOf (linkRecord id path scope))

/-- Parts joined by a separator. -/
def joinWith (sep : JsString) : List JsString → JsString
  | [] => ""
  | [part] => part
  | part :: rest => .append part (.append sep (joinWith sep rest))

namespace OpField

def MAX_OPERATION_PAYLOAD_BYTES : Nat := 1000000
def MAX_OPERATION_BATCH_UPDATES : Nat := 256
def MAX_FIELD_ANCHORS : Nat := 1024
def MAX_ANCHOR_ID_LENGTH : Nat := 256

def assertDefaultOperationBranch (branch : BranchName) : Except EngineError Unit :=
  require (branch = DEFAULT_BRANCH)
    (.protocol "collaborative operation fields only support the default branch")

def missingFieldPath (path : ValuePath) : EngineError :=
  .protocol (.append "operation field path is missing: " (joinWith "." path))

def valueAtFrom (e : Engine) (full : ValuePath) :
    FabricValue → ValuePath → Except EngineError FabricValue
  | value, [] => .ok value
  | .array slots, part :: rest =>
    match e.numberOf part with
    | some i =>
      if i < slots.length then valueAtFrom e full ((slots[i]?.join).getD .undefined) rest
      else .error (missingFieldPath full)
    | none => .error (missingFieldPath full)
  | .record fields, part :: rest =>
    match Fields.get? fields part with
    | some value => valueAtFrom e full value rest
    | none => .error (missingFieldPath full)
  | _, _ :: _ => .error (missingFieldPath full)

/-- `document?.value ?? null`. -/
def fieldRoot (document : Option EntityDocument) : FabricValue :=
  match document.bind (·.value?) with
  | none => .null
  | some .undefined => .null
  | some value => value

def valueAtOperationPath (e : Engine) (document : Option EntityDocument) (path : ValuePath) :
    Except EngineError FabricValue :=
  valueAtFrom e path (fieldRoot document) path

/-- A safe integer of zero or more. -/
def safeOffset? : JsNumber → Option Nat
  | .finite q => if q.den = 1 ∧ 0 ≤ q.num ∧ q.num < 2 ^ 53 then some q.num.toNat else none
  | .negZero => some 0
  | _ => none

/-- `parseFieldAnchors`: the anchors a value holds, or what is wrong with it. -/
def parseFieldAnchors : FabricValue → Except JsString FieldAnchors
  | .record fields =>
    if MAX_FIELD_ANCHORS < fields.length then .error "holds more than 1024 anchors"
    else fields.mapM fun (id, offset) =>
      if id.units = [] ∨ MAX_ANCHOR_ID_LENGTH < id.units.length then
        .error "holds an anchor id that is empty or longer than 256 characters"
      else match offset with
        | .number n => match safeOffset? n with
          | some i => .ok (id, i)
          | none => .error (offsetFault id)
        | _ => .error (offsetFault id)
  | _ => .error "is not a map from anchor id to offset"
where
  offsetFault (id : JsString) : JsString :=
    .append "holds anchor " (.append id " at something other than a non-negative integer offset")

/-- Whether two maps hold the same anchors at the same offsets. -/
def sameAnchors (a b : FieldAnchors) : Bool :=
  a.length = b.length && a.all fun x => b.any (· = x)

def anchorsValue (anchors : FieldAnchors) : FabricValue :=
  .record (anchors.map fun (id, n) => (id, .number (.ofNat n)))

def mappedAnchors (codecId : JsString) (prior : FieldAnchors) (mapped : FabricValue) :
    Except EngineError FieldAnchors :=
  match parseFieldAnchors mapped with
  | .error fault => .error (.opCodec (.append "operation codec " (.append codecId
      (.append " did not map the field's anchors to anchors: the result " fault))))
  | .ok anchors =>
    if prior.length = anchors.length ∧ prior.all fun x => anchors.any (·.1 = x.1) then .ok anchors
    else .error (.opCodec (.append "operation codec " (.append codecId
      " mapped the field's anchors to other ids")))

def readFieldAnchors (e : Engine) (s : Store) (doc : DocInstance) (id : EntityId)
    (path : ValuePath) (scope : Option CellScope) : Except EngineError FieldAnchors := do
  let anchorsDoc : DocInstance := ⟨doc.branch, operationAnchorsDocId e.hashing id path scope, doc.scopeKey⟩
  let document ← s.documentAt anchorsDoc none
  match document.bind (·.value?) with
  | none => .ok []
  | some .undefined => .ok []
  | some value => match parseFieldAnchors value with
    | .ok anchors => .ok anchors
    | .error _ => .ok []

def validateOperationPath (path : ValuePath) : Except EngineError Unit :=
  require (path.length ≤ 256 && path.all fun part => part.units.length ≤ 1024)
    (.protocol "operation field path is malformed or too large")

def validateCursor (c : OpCursor) : Bool := 0 < c.epoch

/-- `/@[1-9][0-9]*$/` -/
def isVersionedCodec (codec : JsString) : Bool :=
  let reversed := codec.units.reverse
  let digits := reversed.takeWhile isDigit
  match digits.getLast?, reversed.drop digits.length with
  | some first, at_ :: _ => first != 48 && at_ == 64
  | _, _ => false

def payloadUpdates : FabricValue → Nat
  | .record fields => match Fields.get? fields "updates" with
    | some (.array slots) => slots.length
    | _ => 0
  | _ => 0

/-- `base` and `baselineHash` agree: a hash exactly when the base is the baseline. -/
def baselineStated (op : ApplyOpOperation) : Bool :=
  match op.base with
  | .baseline => present op.baselineHash
  | _ => op.baselineHash.isNone

def validateApplyOperation (e : Engine) (op : ApplyOpOperation) : Except EngineError Unit := do
  validateOperationPath op.path
  require (op.id.units ≠ [] && isVersionedCodec op.codec && op.submissionId.units ≠ [] &&
      op.submissionId.units.length ≤ 256)
    (.protocol "apply-op identity fields are malformed")
  require (match op.base with
      | .cursor c => validateCursor c
      | _ => true)
    (.opCursorMismatch "apply-op cursor is malformed")
  require (baselineStated op)
    (.opFieldBaselineMismatch "baselineHash is required exactly when apply-op base is null")
  require (e.hashing.encodedByteLength op.payload ≤ MAX_OPERATION_PAYLOAD_BYTES)
    (.opCodec "operation payload exceeds the byte limit")
  require (payloadUpdates op.payload ≤ MAX_OPERATION_BATCH_UPDATES)
    (.opCodec "operation payload exceeds the update-count limit")

def fieldKey (doc : DocInstance) (path : ValuePath) : OpFieldKey :=
  ⟨doc, Pointer.encodePointer path⟩

def selectOperationField (s : Store) (key : OpFieldKey) : Option OpFieldRow :=
  s.opFields.epochs.find? (·.key = key)

def selectIntegratedOperations (s : Store) (key : OpFieldKey) (epoch afterVersion : Nat) :
    List OpIntegratedRow :=
  Query.ascending OpIntegratedRow.version
    (s.opFields.integrated.filter fun r =>
      r.key = key && r.epoch = epoch && afterVersion < r.version)

/-- `row.version === null ? field.version : row.version - 1` of the oldest row kept. -/
def retainedOperationVersion (s : Store) (key : OpFieldKey) (field : OpFieldRow) : Nat :=
  match (s.opFields.integrated.filter fun r => r.key = key && r.epoch = field.epoch).argmin
      OpIntegratedRow.version with
  | some row => row.version - 1
  | none => field.version

/-- A baseline hash submitted without a base names the field's value as it stands. -/
def checkBaselineHash (doc : DocInstance) (op : ApplyOpOperation) (currentHash : JsString) :
    Except EngineError Unit :=
  match op.baselineHash with
  | none => .ok ()
  | some hash => do
    require (hash.units ≠ []) (.opFieldBaselineMismatch "apply-op baselineHash is malformed")
    require (hash = currentHash)
      (.staleOperationBaseline (.append op.id (.append " " doc.scopeKey)))

/-- `withStatedBase`: the operation with its base stated. -/
def withStatedBase (e : Engine) (s : Store) (doc : DocInstance) (op : ApplyOpOperation) :
    Except EngineError ApplyOpOperation :=
  if op.base ≠ .absent then .ok op
  else do
    validateOperationPath op.path
    let document ← s.documentAt doc none
    let value ← valueAtOperationPath e document op.path
    let currentHash := e.hashing.operationBaselineHash value
    checkBaselineHash doc op currentHash
    match selectOperationField s (fieldKey doc op.path) with
    | some field =>
      if field.active then
        .ok { op with base := .cursor ⟨field.epoch, field.version⟩, baselineHash := none }
      else .ok { op with base := .baseline, baselineHash := some currentHash }
    | none => .ok { op with base := .baseline, baselineHash := some currentHash }

def integratedOperationId (h : Hashing) (doc : DocInstance) (path : ValuePath)
    (epoch version : Nat) : JsString :=
  .append "op:" (h.operationBaselineHash (.record [("branch", .string doc.branch),
    ("epoch", .number (.ofNat epoch)), ("id", .string doc.id),
    ("path", .array (path.map fun s => some (.string s))), ("scopeKey", .string doc.scopeKey),
    ("version", .number (.ofNat version))]))

def storedOperationResolution (h : Hashing) (operationIndex : Nat) (doc : DocInstance)
    (scope : CellScope) (path : ValuePath) (row : OpSubmissionRow) (duplicate : Bool) :
    ApplyOpResolution where
  operationIndex := operationIndex
  doc := doc
  scope := scope
  path := path
  codec := row.codec
  submissionId := row.submissionId
  source := ⟨row.epoch, row.integratedFrom⟩
  target := ⟨row.epoch, row.integratedTo⟩
  operations := row.integratedPayload.zipIdx.map fun (payload, index) =>
    ⟨integratedOperationId h doc path row.epoch (row.integratedFrom + index + 1),
      ⟨row.epoch, row.integratedFrom + index + 1⟩, row.submissionId, payload⟩
  duplicate := duplicate

/-- The version of an operation's base. -/
def baseVersion : OpBase → Nat
  | .cursor c => c.version
  | _ => 0

/-- The base names the submission's own epoch. -/
def baseInEpoch (base : OpBase) (epoch : Nat) : Bool :=
  match base with
  | .cursor c => c.epoch = epoch
  | _ => true

/-- A stored submission is the one being made again. -/
def sameSubmission (op : ApplyOpOperation) (prior : Option OpFieldRow) (row : OpSubmissionRow) :
    Bool :=
  row.codec = op.codec && baseInEpoch op.base row.epoch && row.baseVersion = baseVersion op.base &&
    (op.base ≠ .baseline || op.baselineHash = prior.map (·.baselineHash)) &&
    row.submittedPayload = op.payload

/-- What an operation integrates into: the field's epoch and version, and what came
after the operation's base. -/
structure FieldState where
  epoch : Nat
  version : Nat
  baselineHash : JsString
  intervening : List FabricValue

def insertCheckpoint (s : Store) (row : OpCheckpointRow) : Except EngineError Store := do
  require (!s.opFields.checkpoints.any fun r =>
      r.key = row.key && r.epoch = row.epoch && r.version = row.version)
    (.constraint "op_checkpoint")
  .ok { s with opFields := { s.opFields with
    checkpoints := s.opFields.checkpoints ++ [row] } }

/-- Opens a new epoch at the field's baseline. -/
def openEpoch (e : Engine) (s : Store) (seq : Nat) (key : OpFieldKey) (op : ApplyOpOperation)
    (prior : Option OpFieldRow) (current : FabricValue) :
    Except EngineError (Store × FieldState) := do
  require (op.base = .baseline)
    (.opCursorMismatch "inactive operation fields require a null base")
  let currentHash := e.hashing.operationBaselineHash current
  require (op.baselineHash = some currentHash)
    (.opFieldBaselineMismatch "operation field baseline hash mismatch")
  let epoch := (prior.map (·.epoch)).getD 0 + 1
  let s ← insertCheckpoint s ⟨key, epoch, 0, current, seq⟩
  .ok (s, ⟨epoch, 0, currentHash, []⟩)

/-- The version an operation on an active field is based on. -/
def activeBaseVersion (op : ApplyOpOperation) (field : OpFieldRow) : Except EngineError Nat :=
  match op.base with
  | .cursor c => do
    require (c.epoch = field.epoch) (.opCursorMismatch "operation field epoch mismatch")
    require (c.version ≤ field.version)
      (.opCursorMismatch "operation field base version is in the future")
    .ok c.version
  | _ => do
    require (op.baselineHash = some field.baselineHash)
      (.opFieldBaselineMismatch "operation field baseline hash mismatch")
    .ok 0

def continueEpoch (e : Engine) (s : Store) (key : OpFieldKey) (op : ApplyOpOperation)
    (field : OpFieldRow) (current : FabricValue) : Except EngineError FieldState := do
  require (op.codec = field.codec)
    (.opCodec "operation field codec cannot change within an epoch")
  let base ← activeBaseVersion op field
  let retained := retainedOperationVersion s key field
  require (retained ≤ base)
    (.opHistoryUnavailable (.append "operation field history before version "
      (.append (toString retained) " is unavailable")))
  require (e.hashing.operationBaselineHash current =
      e.hashing.operationBaselineHash field.materialized)
    (.protocol "operation field materialization diverged from the entity value")
  .ok ⟨field.epoch, field.version, field.baselineHash,
    (selectIntegratedOperations s key field.epoch base).map (·.payload)⟩

/-- The field as the operation finds it: its epoch continued, or a new one opened. -/
def enterEpoch (e : Engine) (s : Store) (seq : Nat) (key : OpFieldKey) (op : ApplyOpOperation)
    (prior : Option OpFieldRow) (current : FabricValue) :
    Except EngineError (Store × FieldState) :=
  match prior.filter (·.active) with
  | some active => do
    let field ← continueEpoch e s key op active current
    .ok (s, field)
  | none => openEpoch e s seq key op prior current

def requireCodec (e : Engine) (codec : JsString) : Except EngineError OperationCodec :=
  match e.operationCodecs codec with
  | some registered => .ok registered
  | none => .error (.unsupportedOpCodec (.append "unknown operation codec: " codec))

/-- What the codec made of the payload, within the limits. -/
def integrate (e : Engine) (codec : OperationCodec) (op : ApplyOpOperation)
    (current : FabricValue) (intervening : List FabricValue) :
    Except EngineError (FabricValue × List FabricValue) :=
  match codec.integrate current op.payload intervening with
  | .error failure => .error (.opCodec (.append "operation codec " (.append op.codec
      (.append " rejected the payload: " failure))))
  | .ok (materialized, operations) => do
    require (operations.length ≤ MAX_OPERATION_BATCH_UPDATES)
      (.opCodec "operation codec produced too many operations")
    require (e.hashing.encodedByteLength materialized ≤ MAX_OPERATION_PAYLOAD_BYTES)
      (.opCodec "operation materialized value exceeds the byte limit")
    require (operations.all fun p => e.hashing.encodedByteLength p ≤ MAX_OPERATION_PAYLOAD_BYTES)
      (.opCodec "integrated operation exceeds the byte limit")
    require (operations ≠ [] || valueEqual materialized current)
      (.opCodec ("operation codec changed the materialized value without producing an operation"))
    .ok (materialized, operations)

/-- The anchors after the operations: those before them, mapped by the codec. -/
def nextAnchors (codec : OperationCodec) (codecId : JsString) (prior : FieldAnchors)
    (operations : List FabricValue) : Except EngineError FieldAnchors :=
  if prior = [] ∨ operations = [] then .ok prior
  else match codec.mapAnchors prior operations with
    | .error failure => .error (.opCodec (.append "operation codec " (.append codecId
        (.append " could not map the field's anchors: " failure))))
    | .ok mapped => mappedAnchors codecId prior mapped

def upsertOperationFieldHead (s : Store) (row : OpFieldRow) : Store :=
  { s with opFields := { s.opFields with
    epochs := s.opFields.epochs.filter (·.key ≠ row.key) ++ [row] } }

def insertIntegrated (s : Store) (rows : List OpIntegratedRow) : Except EngineError Store := do
  require (!s.opFields.integrated.any fun r => rows.any fun x =>
      r.opId = x.opId || (r.key = x.key && r.epoch = x.epoch && r.version = x.version))
    (.constraint "op_integrated")
  .ok { s with opFields := { s.opFields with
    integrated := s.opFields.integrated ++ rows } }

/-- Every `operationCheckpointInterval` versions: a checkpoint, and the end of what the
checkpoint before it still kept. -/
def maybeCheckpoint (e : Engine) (s : Store) (seq : Nat) (key : OpFieldKey)
    (epoch version nextVersion : Nat) (materialized : FabricValue) : Except EngineError Store :=
  if nextVersion / e.operationCheckpointInterval ≤ version / e.operationCheckpointInterval then
    .ok s
  else do
    let s ← insertCheckpoint s ⟨key, epoch, nextVersion, materialized, seq⟩
    match Query.newest OpCheckpointRow.version (s.opFields.checkpoints.filter fun r =>
        r.key = key && r.epoch = epoch && r.version < nextVersion) with
    | some prior =>
      if 0 < prior.version then
        .ok { s with opFields := { s.opFields with
          integrated := s.opFields.integrated.filter fun r =>
            !(r.key = key && r.epoch = epoch && r.version ≤ prior.version) } }
      else .ok s
    | none => .ok s

def insertSubmission (s : Store) (row : OpSubmissionRow) : Except EngineError Store := do
  require (!s.opFields.submissions.any fun r =>
      r.key = row.key && r.epoch = row.epoch && r.submissionId = row.submissionId)
    (.constraint "op_submission")
  .ok { s with opFields := { s.opFields with
    submissions := s.opFields.submissions ++ [row] } }

/-- The field's new value as a patch of its document. -/
def materializedWrite (op : ApplyOpOperation) (materialized : FabricValue) : DocumentWrite :=
  ⟨op.id, op.scope, .patch [.replace (Pointer.encodePointer ("value" :: op.path)) materialized]⟩

/-- A field's anchors as a patch of its anchors document. -/
def anchorsWrite (h : Hashing) (op : ApplyOpOperation) (anchors : FieldAnchors) : DocumentWrite :=
  ⟨operationAnchorsDocId h op.id op.path op.scope, op.scope,
    .patch [.replace "/value" (anchorsValue anchors)]⟩

/-- The write of the field's new value, when the operation made one. -/
def writeValue (s : Store) (ctx : WriteContext) (op : ApplyOpOperation)
    (materialized : FabricValue) (operations : List FabricValue) :
    Except EngineError (Store × List AppliedRevision) :=
  if operations = [] then .ok (s, [])
  else do
    let (s, revision) ← s.writeOperation ctx (materializedWrite op materialized)
    .ok (s, [revision])

/-- The document writes of an integrated operation, in order. -/
def writeMaterialized (h : Hashing) (s : Store) (ctx : WriteContext) (op : ApplyOpOperation)
    (materialized : FabricValue) (operations : List FabricValue) (prior next : FieldAnchors) :
    Except EngineError (Store × List AppliedRevision) := do
  let (s, written) ← writeValue s ctx op materialized operations
  if sameAnchors prior next then .ok (s, written)
  else do
    let (s, revision) ← s.writeOperation ctx (anchorsWrite h op next)
    .ok (s, written ++ [{ revision with derived := true }])

structure AppliedOperation where
  resolution : ApplyOpResolution
  revisions : List AppliedRevision

/-- The first application of a submission. -/
def applyFreshOperation (e : Engine) (s : Store) (ctx : WriteContext) (doc : DocInstance)
    (op : ApplyOpOperation) (prior : Option OpFieldRow) :
    Except EngineError (Store × AppliedOperation) := do
  let key := fieldKey doc op.path
  let document ← s.documentAt doc none
  let current ← valueAtOperationPath e document op.path
  let (s, field) ← enterEpoch e s ctx.seq key op prior current
  let codec ← requireCodec e op.codec
  let (materialized, operations) ← integrate e codec op current field.intervening
  let priorAnchors ← readFieldAnchors e s doc op.id op.path op.scope
  let anchors ← nextAnchors codec op.codec priorAnchors operations
  let nextVersion := field.version + operations.length
  let s := upsertOperationFieldHead s
    ⟨key, field.epoch, op.codec, nextVersion, field.baselineHash, materialized, true, ctx.seq⟩
  let s ← insertIntegrated s (operations.zipIdx.map fun (payload, index) =>
    ⟨key, field.epoch, field.version + index + 1,
      integratedOperationId e.hashing doc op.path field.epoch (field.version + index + 1),
      op.submissionId, payload, ctx.seq⟩)
  let s ← maybeCheckpoint e s ctx.seq key field.epoch field.version nextVersion materialized
  let submission : OpSubmissionRow := ⟨key, field.epoch, op.submissionId, op.codec,
    baseVersion op.base, op.payload, field.version, nextVersion, operations, ctx.seq, ctx.opIndex⟩
  let s ← insertSubmission s submission
  let (s, revisions) ← writeMaterialized e.hashing s ctx op materialized operations priorAnchors
    anchors
  .ok (s, ⟨storedOperationResolution e.hashing ctx.opIndex doc (normalizeScope op.scope) op.path
    submission false, revisions⟩)

def applyOperation (e : Engine) (s : Store) (ctx : WriteContext) (op : ApplyOpOperation) :
    Except EngineError (Store × AppliedOperation) := do
  assertDefaultOperationBranch ctx.branch
  validateApplyOperation e op
  require (!isStreamEntriesDocId op.id)
    (.protocol "apply-op cannot mutate a stream sidecar document")
  require (!isOperationAnchorsDocId op.id)
    (.protocol "apply-op cannot mutate an anchors document")
  let scopeKey ← writeScopeKey op.scope ctx.identity ctx.scopeKeyOverride
  let doc : DocInstance := ⟨ctx.branch, op.id, scopeKey⟩
  let key := fieldKey doc op.path
  let prior := selectOperationField s key
  let submissionEpoch := match prior with
    | some field => if field.active then field.epoch else field.epoch + 1
    | none => 1
  match s.opFields.submissions.find? fun r =>
      r.key = key && r.epoch = submissionEpoch && r.submissionId = op.submissionId with
  | some row => do
    require (sameSubmission op prior row)
      (.opSubmissionMismatch (.append "operation submission replay mismatch: " op.submissionId))
    .ok (s, ⟨storedOperationResolution e.hashing ctx.opIndex doc (normalizeScope op.scope) op.path
      row true, []⟩)
  | none => applyFreshOperation e s ctx doc op prior

/-- `UPDATE op_field_epoch SET active = 0` of the fields that match. -/
def deactivate (s : Store) (which : OpFieldRow → Bool) : Store :=
  { s with opFields := { s.opFields with
    epochs := s.opFields.epochs.map fun r => if which r then { r with active := false } else r } }

def releaseOperationField (s : Store) (ctx : WriteContext) (op : ReleaseOpFieldOperation) :
    Except EngineError Store := do
  assertDefaultOperationBranch ctx.branch
  validateOperationPath op.path
  require (validateCursor op.cursor)
    (.opCursorMismatch "operation field release cursor is malformed")
  let scopeKey ← writeScopeKey op.scope ctx.identity ctx.scopeKeyOverride
  let key := fieldKey ⟨ctx.branch, op.id, scopeKey⟩ op.path
  match selectOperationField s key with
  | none => .error (.opCursorMismatch "operation field release cursor mismatch")
  | some field => do
    require (field.active && field.epoch = op.cursor.epoch && field.version = op.cursor.version)
      (.opCursorMismatch "operation field release cursor mismatch")
    require (field.codec = op.codec) (.opCodec "operation field release codec mismatch")
    .ok (deactivate s (·.key = key))

/-- Releases every active field of an entity being deleted. -/
def releaseEntityOperationFields (s : Store) (ctx : WriteContext) (w : DocumentWrite) :
    Except EngineError Store := do
  let scopeKey ← writeScopeKey w.scope ctx.identity ctx.scopeKeyOverride
  .ok (deactivate s (·.key.doc = ⟨ctx.branch, w.id, scopeKey⟩))

/-- An ordinary write keeps the value of an active field. -/
def assertFieldPreserved (e : Engine) (next : EntityDocument) (field : OpFieldRow) :
    Except EngineError Unit := do
  let path ← liftPatch (parsePointer field.key.path)
  match valueAtOperationPath e (some next) path with
  | .error _ => .error (.opFieldWriteConflict
      (.append "ordinary write removes active operation field: " (joinWith "." path)))
  | .ok value =>
    require (e.hashing.operationBaselineHash value =
        e.hashing.operationBaselineHash field.materialized)
      (.opFieldWriteConflict
        (.append "ordinary write changes active operation field: " (joinWith "." path)))

/-- The document an ordinary write leaves. -/
def writtenDocument (current : Option EntityDocument) : RevisionData →
    Except EngineError EntityDocument
  | .set value => .ok value
  | .patch patches => liftPatch (applyPatchToDocument current patches)
  | .delete => .ok emptyEntityDocument

def assertOperationFieldsPreserved (e : Engine) (s : Store) (ctx : WriteContext)
    (w : DocumentWrite) : Except EngineError Unit := do
  let scopeKey ← writeScopeKey w.scope ctx.identity ctx.scopeKeyOverride
  let doc : DocInstance := ⟨ctx.branch, w.id, scopeKey⟩
  let activeFields := s.opFields.epochs.filter fun r => r.key.doc = doc && r.active
  if activeFields = [] then .ok ()
  else do
    let current ← s.documentAt doc none
    let next ← writtenDocument current w.data
    activeFields.forM (assertFieldPreserved e next)

/-- Checks the anchors document an operation just wrote. -/
def assertAnchorsDocument (s : Store) (opIndex : Nat) (revision : AppliedRevision) :
    Except EngineError Unit := do
  let document ← s.documentAt revision.row.doc none
  match document.bind (·.value?) with
  | none => .ok ()
  | some .undefined => .ok ()
  | some value => match parseFieldAnchors value with
    | .ok _ => .ok ()
    | .error fault => .error (.protocol (.append "commit operation " (.append (toString opIndex)
        (.append ": anchors document " (.append revision.row.doc.id (.append " " fault))))))

def assertAnchorsWrite (s : Store) (opIndex : Nat) (revision : AppliedRevision) :
    Except EngineError Unit :=
  if isOperationAnchorsDocId revision.row.doc.id then assertAnchorsDocument s opIndex revision
  else .ok ()

end OpField
