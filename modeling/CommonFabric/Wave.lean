import CommonFabric.Commit

/-!
# Wave commits

A wave is a derived commit with the heads and the reads it was computed on. It is
verified again under the transaction that writes it: the heads of the documents its
operations name, the reads of its handlers, its preconditions, and then all that a
commit is checked for.
-/

open Streams

structure WaveHandlerRead where
  id : EntityId
  scopeKey : ScopeKey
  path : ValuePath
  seq : Nat
  nonRecursive : Bool
  deriving DecidableEq

structure RebasedHead where
  doc : JsString
  head : Nat
  deriving DecidableEq

structure HandlerReads where
  contribution : Nat
  reads : List WaveHandlerRead
  deriving DecidableEq

structure WaveBasis where
  basisSeq : Nat
  rebasedHeads : List RebasedHead
  handlerReads : List HandlerReads
  deriving DecidableEq

/-- A row of a basis instance; one with no seq takes the wave's own. -/
structure WaveBasisRow where
  entitySpace : JsString
  entity : EntityId
  entityScopeKey : ScopeKey
  seq : Option Nat
  deriving DecidableEq

structure WaveBasisInstance where
  action : JsString
  actionScopeKey : ScopeKey
  rows : List WaveBasisRow
  deriving DecidableEq

structure OutboxAppendRow where
  targetSpace : JsString
  targetStream : EntityId
  targetStreamLink : Option FabricValue
  eventId : JsString
  payload : FabricValue
  actingPrincipal : Option JsString
  actingSession : Option JsString
  sessionlessSpaceScope : Bool
  capabilityRef : JsString
  sourceEvent : Option FabricValue
  deriving DecidableEq

structure WaveOptions where
  apply : ApplyCommitOptions
  waveBasis : WaveBasis
  basisInstances : List WaveBasisInstance
  outboxAppends : List OutboxAppendRow
  deriving DecidableEq

namespace Wave

def selectDocHead (s : Store) (doc : DocInstance) : Nat :=
  ((s.selectHead doc).map (·.seq)).getD 0

/-- `NOT_HOLDERS_OWN_DERIVED_COMMIT_SQL`. -/
def notHoldersOwnDerivedCommit (holder : Option JsString) (c : CommitRow) : Bool :=
  !(holder.isSome && c.commitClass = .derived && c.holder = holder)

/-- An operation of the list touches the read; the ones before it were looked at. -/
def patchOverlaps (readPath : ValuePath) (nonRecursive : Bool) :
    List PatchOp → Except EngineError Bool
  | [] => .ok false
  | op :: rest => do
    let leaves ← liftPatch (touchedLeafPathsForPatch op)
    if opTouchesRead op leaves readPath nonRecursive then .ok true
    else patchOverlaps readPath nonRecursive rest

/-- The list without the operations that commute with the read. -/
def dropCommuting (commutes : PatchOp → Except EngineError Bool) :
    List PatchOp → Except EngineError (List PatchOp)
  | [] => .ok []
  | op :: rest => do
    if ← commutes op then dropCommuting commutes rest
    else (op :: ·) <$> dropCommuting commutes rest

/-- The seq of the newest row that conflicts with the read. -/
def staleSeqOf (readPath : ValuePath) (nonRecursive : Bool)
    (commutes : PatchOp → Except EngineError Bool) :
    List RevisionRow → Except EngineError (Option Nat)
  | [] => .ok none
  | row :: rest => match row.data with
    | .patch patches => do
      let kept ← dropCommuting commutes patches
      if ← patchOverlaps readPath nonRecursive kept then .ok (some row.seq)
      else staleSeqOf readPath nonRecursive commutes rest
    | _ => .ok (some row.seq)

/-- The rows a read is checked against, newest first. -/
def rowsAfterRead (s : Store) (doc : DocInstance) (afterSeq : Nat) (holder : Option JsString) :
    List RevisionRow :=
  Query.descending RevisionRow.position ((s.rowsOf doc).filter fun r =>
    afterSeq < r.seq && (s.selectCommit r.commitSeq).any (notHoldersOwnDerivedCommit holder))

def findStaleReadSeq (s : Store) (doc : DocInstance) (afterSeq : Nat) (path : ValuePath)
    (nonRecursive : Bool) (holder : Option JsString)
    (commutes : PatchOp → Except EngineError Bool) : Except EngineError (Option Nat) :=
  staleSeqOf path nonRecursive commutes (rowsAfterRead s doc afterSeq holder)

def isStreamTailAppend : PatchOp → Except EngineError Bool
  | .append path _ _ => isEntriesPath path
  | .addUnique path _ _ => isEntriesPath path
  | _ => .ok false
where
  isEntriesPath (path : JsString) : Except EngineError Bool := do
    let path ← liftPatch (parsePointer path)
    .ok (path = ["value", "entries"])

/-- The index of the entry a read of a sidecar names. -/
def streamEntryIndexOf (read : WaveHandlerRead) : Option Nat :=
  if isStreamEntriesDocId read.id then
    match read.path with
    | first :: second :: index :: _ =>
      if first = "value" && second = "entries" then arrayIndex? index else none
    | _ => none
  else none

/-- The sidecar held an entry at the index as of the read's seq. -/
def sidecarHeldEntryAt (s : Store) (branch : BranchName) (read : WaveHandlerRead) (index : Nat) :
    Except EngineError Bool := do
  let document ← s.documentAt ⟨branch, read.id, read.scopeKey⟩ (some read.seq)
  .ok (index < ((documentValue document).member "entries").elements.length)

/-- The read is of an entry that the sidecar held as of its seq. -/
def readHeldEntry (s : Store) (branch : BranchName) (read : WaveHandlerRead) :
    Except EngineError Bool :=
  match streamEntryIndexOf read with
  | some index => sidecarHeldEntryAt s branch read index
  | none => .ok false

def findHandlerStaleReadSeq (s : Store) (branch : BranchName) (holder : Option JsString)
    (read : WaveHandlerRead) : Except EngineError (Option Nat) :=
  let doc : DocInstance := ⟨branch, read.id, read.scopeKey⟩
  if selectDocHead s doc ≤ read.seq then .ok none
  else do
    let held ← readHeldEntry s branch read
    findStaleReadSeq s doc read.seq read.path read.nonRecursive holder
      (fun patch => if held then isStreamTailAppend patch else .ok false)

def checkBasisKeys (instances : List WaveBasisInstance) : Except EngineError Unit :=
  instances.forM fun instance_ => do
    require (isScopeKey instance_.actionScopeKey)
      (.protocol (.concat ["wave commit rejected: basis action instance key ", "\"",
        instance_.actionScopeKey, "\" is not a canonical scope_key ", "(key-vocabulary.md §3)"]))
    instance_.rows.forM fun row => require (isScopeKey row.entityScopeKey)
      (.protocol (.concat ["wave commit rejected: basis row entity instance key ", "\"",
        row.entityScopeKey, "\" is not a canonical scope_key ", "(key-vocabulary.md §3)"]))

/-- The key an operation's document is checked under. -/
def waveScopeKey (o : ApplyCommitOptions) (operation : Operation) (opIndex : Nat) :
    Except EngineError ScopeKey :=
  let annotated :=
    if normalizeScope operation.scope? = .space then none else o.annotatedKey opIndex
  writeScopeKey operation.scope? o.session annotated

/-- A document by its id and key. -/
def docText (id : EntityId) (scopeKey : ScopeKey) : JsString := .concat [id, " ", scopeKey]

/-- The head a document was rebased on; of two for one document, the later counts. -/
def rebasedAt (basis : WaveBasis) (key : JsString) : Option Nat :=
  ((basis.rebasedHeads.filter (·.doc = key)).getLast?).map (·.head)

/-- The head moved past what the wave was computed on. -/
def headConflicts (basis : WaveBasis) (key : JsString) (head : Nat) : Bool :=
  match rebasedAt basis key with
  | some rebased => head ≠ rebased
  | none => basis.basisSeq < head

structure HeadState where
  checked : List JsString
  conflicted : List JsString

def checkHead (s : Store) (w : WaveOptions) (st : HeadState) (step : Operation × Nat) :
    Except EngineError HeadState := do
  let (operation, opIndex) := step
  match operation.id? with
  | none => .ok st
  | some id => do
    let scopeKey ← waveScopeKey w.apply operation opIndex
    let key := docText id scopeKey
    if st.checked.contains key then .ok st
    else
      let conflicts :=
        headConflicts w.waveBasis key (selectDocHead s ⟨w.apply.branch, id, scopeKey⟩)
      .ok ⟨st.checked ++ [key], if conflicts then st.conflicted ++ [key] else st.conflicted⟩

def checkHeads (s : Store) (w : WaveOptions) : Except EngineError Unit := do
  let st ← w.apply.commit.operations.zipIdx.foldlM (checkHead s w) ⟨[], []⟩
  require (st.conflicted = []) (.waveCommitConflict st.conflicted)

/-- The stale reads of one contribution. -/
def staleReadsOf (s : Store) (w : WaveOptions) (h : HandlerReads) :
    Except EngineError (List (Nat × Nat × Nat)) :=
  (·.filterMap id) <$> h.reads.zipIdx.mapM fun (read, index) => do
    let stale ← findHandlerStaleReadSeq s w.apply.branch w.apply.holder read
    .ok (stale.map fun seq => (h.contribution, index, seq))

def checkHandlerReads (s : Store) (w : WaveOptions) : Except EngineError Unit := do
  let stale ← w.waveBasis.handlerReads.mapM (staleReadsOf s w)
  require (stale.flatten = []) (.waveStaleRead stale.flatten)

/-- What failed of the preconditions: their indexes and the first one's text. -/
def failedPreconditions (e : Engine) (s : Store) (o : ApplyCommitOptions) (sessionKey : JsString) :
    List (CommitPrecondition × Nat) → Except EngineError (List (Nat × JsString))
  | [] => .ok []
  | (precondition, index) :: rest =>
    match Commit.checkPrecondition e s sessionKey o.branch o.session precondition with
    | .ok _ => failedPreconditions e s o sessionKey rest
    | .error (.preconditionFailed _ message) =>
      ((index, message) :: ·) <$> failedPreconditions e s o sessionKey rest
    | .error (.entityValueHashConflict id) =>
      ((index, .append "entity-value-hash precondition target changed: " id) :: ·) <$>
        failedPreconditions e s o sessionKey rest
    | .error refusal => .error refusal

def checkPreconditions (e : Engine) (s : Store) (w : WaveOptions) : Except EngineError Unit := do
  let sessionKey ← resolveCommitSessionKey w.apply.sessionId w.apply.principal
  let failed ← failedPreconditions e s w.apply sessionKey w.apply.commit.preconditions.zipIdx
  require (failed = [])
    (.wavePrecondition (failed.map (·.1)) ((failed.map (·.2)).headD ""))

/-- A refusal that names a document becomes the wave's conflict over it. -/
def asWaveRefusal {α : Type} : Except EngineError α → Except EngineError α
  | .error (.staleOperationBaseline doc) => .error (.waveCommitConflict [doc])
  | result => result

/-- `ON CONFLICT … DO UPDATE` of a basis row. -/
def upsertBasisRow (rows : List SchedulerBasisRow) (row : SchedulerBasisRow) :
    List SchedulerBasisRow :=
  rows.filter (fun r => { r with seq := row.seq } ≠ row) ++ [row]

def replaceSchedulerBasisRows (s : Store) (branch : BranchName) (seq : Nat)
    (instance_ : WaveBasisInstance) : Store :=
  let kept := s.schedulerBasis.filter fun r =>
    !(r.branch = branch && r.action = instance_.action &&
      r.actionScopeKey = instance_.actionScopeKey)
  { s with schedulerBasis := (instance_.rows.map fun row =>
      ⟨branch, instance_.action, instance_.actionScopeKey, row.entitySpace, row.entity,
        row.entityScopeKey, row.seq.getD seq⟩).foldl upsertBasisRow kept }

def outboxRow (branch : BranchName) (seq : Nat) (r : OutboxAppendRow) : OutboxRow :=
  ⟨branch, r.targetSpace, r.targetStream, r.targetStreamLink, r.eventId, r.payload,
    r.actingPrincipal, r.actingSession, r.sessionlessSpaceScope, r.capabilityRef, r.sourceEvent,
    seq⟩

/-- The scheduler's basis and, when the wave is not a replay, its outbound appends. -/
def recordWave (s : Store) (w : WaveOptions) (applied : AppliedCommit) : Store :=
  let branch := w.apply.branch
  let s := w.basisInstances.foldl (fun s i => replaceSchedulerBasisRows s branch applied.seq i) s
  if applied.replayed then s
  else { s with outbox := s.outbox ++ w.outboxAppends.map (outboxRow branch applied.seq) }

/-- The options the wave's commit is applied with. -/
def applyOptions (w : WaveOptions) : ApplyCommitOptions :=
  if w.outboxAppends = [] then w.apply else { w.apply with allowEmptyOperations := true }

def applyWaveTransaction (e : Engine) (s : Store) (w : WaveOptions) :
    Except EngineError (Store × AppliedCommit) := do
  checkBasisKeys w.basisInstances
  checkHeads s w
  checkHandlerReads s w
  checkPreconditions e s w
  let (s, applied) ← asWaveRefusal (Commit.applyCommitTransaction e s (applyOptions w))
  .ok (recordWave s w applied, applied)

end Wave
