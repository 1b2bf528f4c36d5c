import CommonFabric.ContentAddressed

/-!
# The commit transaction

A resubmitted commit is answered from the rows the first submission left. Any
other is admitted or refused as a whole: its envelope, its preconditions, its
content-addressed operations, its reads. An admitted commit takes the next seq,
writes a row for each operation it does not elide, and may snapshot what it wrote.
-/

open ContentAddressed Streams

structure AppliedCommit where
  seq : Nat
  branch : BranchName
  revisions : List AppliedRevision
  operationResolutions : List ApplyOpResolution
  elidedOpIndexes : List Nat
  replayed : Bool
  deriving DecidableEq

namespace ApplyCommitOptions

/-- The committing session's own identity. -/
def session (o : ApplyCommitOptions) : ScopeKeyIdentity := ⟨o.principal, some o.sessionId⟩

/-- The identity scoped writes key from. -/
def actor (o : ApplyCommitOptions) : ScopeKeyIdentity :=
  actorIdentity o.principal o.sessionId o.delegated

def branch (o : ApplyCommitOptions) : BranchName := o.commit.branch.getD DEFAULT_BRANCH

/-- The holder as a commit row keeps it: that of a derived commit. -/
def storedHolder (o : ApplyCommitOptions) : Option JsString :=
  if o.commitClass = .derived then o.holder else none

/-- The last scope key annotated for an operation. -/
def annotatedKey (o : ApplyCommitOptions) (opIndex : Nat) : Option ScopeKey :=
  (((o.annotations.getD []).filter (·.op = opIndex)).filterMap (·.scopeKey)).getLast?

/-- `scopeKeyByOpIndex`. -/
def scopeKeyAt (o : ApplyCommitOptions) (opIndex : Nat) : Option ScopeKey :=
  if o.commitClass = .derived then o.annotatedKey opIndex else none

def passContext (o : ApplyCommitOptions) : PassContext :=
  ⟨o.branch, o.session, o.actor, o.scopeKeyAt⟩

def author (o : ApplyCommitOptions) : EventAuthor :=
  ⟨o.commitClass, o.principal, o.sessionId, o.delegated, o.systemEventActor⟩

end ApplyCommitOptions

namespace Commit

/-- A revision of an anchors document that the operation at its index does not name. -/
def isDerivedRow (operations : List Operation) (row : RevisionRow) : Bool :=
  isOperationAnchorsDocId row.doc.id &&
    match operations[row.opIndex]? with
    | some operation => operation.id?.any (· ≠ row.doc.id)
    | none => false

def replayedRevision (operations : List Operation) (row : RevisionRow) : AppliedRevision :=
  ⟨row, some (scopeOfScopeKey row.doc.scopeKey), isDerivedRow operations row⟩

/-- The operations other than `sqlite` at whose index no revision stands. -/
def replayedElided (operations : List Operation) (rows : List RevisionRow) : List Nat :=
  (operations.zipIdx.filter fun (operation, opIndex) =>
    !operation.isSqlite && !(rows.map (·.opIndex)).contains opIndex).map (·.2)

def replayMismatch (o : ApplyCommitOptions) (suffix : JsString) : EngineError :=
  .protocol (.concat ["commit replay mismatch for session ", o.sessionId, " localSeq ",
    toString o.commit.localSeq, suffix])

def replayCommit (s : Store) (o : ApplyCommitOptions) (existing : CommitRow) :
    Except EngineError AppliedCommit := do
  require (existing.original = o.commit) (replayMismatch o "")
  require (existing.commitClass = o.commitClass && existing.holder = o.storedHolder)
    (replayMismatch o ": stored class/holder differ from the resubmission")
  let rows := s.selectCommitRevisions existing.seq
  .ok { seq := existing.seq
        branch := existing.branch
        revisions := rows.map (replayedRevision o.commit.operations)
        operationResolutions := existing.resolution.operationResolutions
        elidedOpIndexes := replayedElided o.commit.operations rows
        replayed := true }

/-- `aclDocId`. -/
def aclDocId (space : JsString) : EntityId := .append "of:" space

def checkDerived (e : Engine) (o : ApplyCommitOptions) (sessionKey : JsString) :
    Except EngineError Unit := do
  require (o.holder.isSome && o.space.bind e.holderOf = o.holder)
    (.protocol (.concat ["derived-class commit rejected: producer does not hold the ",
      "execution lease for the space (serving-loop.md §2)"]))
  require (o.holder = some sessionKey)
    (.protocol (.concat ["derived-class commit rejected: producing session is not the ",
      "lease holder's own service session (protocol.md §2, RULED ", "2026-08-05)"]))
  require o.delegated.isNone
    (.protocol (.concat ["delegated-identity carriage is server-produced AUTHORED ",
      "admission only (protocol.md §2's delegated row); a derived ",
      "commit's identity rides its per-write annotations"]))
  let space := o.space.getD ""
  match o.commit.operations.findIdx? fun op => op.id? = some (aclDocId space) with
  | some opIndex => .error (.derivedAclDocumentWrite space opIndex)
  | none => .ok ()

def checkSystemEventActor (o : ApplyCommitOptions) (actor : SystemEventActor) :
    Except EngineError Unit := do
  require (o.commitClass = .system)
    (.protocol (.concat ["system event actor carriage is system-commit admission only ",
      "(events.md §5)"]))
  require (actor.principal.units ≠ [] && actor.sessionId.units ≠ [] &&
      o.principal = some actor.principal)
    (.protocol (.concat ["system event actor carriage requires the authenticated principal ",
      "and current session (events.md §5)"]))
  require (o.commit.eventAppends ≠ [])
    (.protocol (.concat ["system event actor carriage requires a declared Retry append ",
      "(events.md §5)"]))

def checkDelegated (o : ApplyCommitOptions) (delegated : Delegated) : Except EngineError Unit := do
  require (o.commitClass = .authored)
    (.protocol (.concat ["delegated-identity carriage is authored-class admission only ",
      "(protocol.md §2's delegated row)"]))
  require (present delegated.capabilityRef)
    (.protocol (.concat ["delegated admission requires the capability grant ",
      "(protocol.md §2's server-produced authored row) — partial ",
      "carriage is refused, never defaulted"]))
  if present delegated.actingPrincipal then
    require (!delegated.sessionlessSpaceScope)
      (.protocol (.concat ["delegated admission rejected: a sessionless-space-scope ",
        "declaration alongside an acting principal is a contradiction ",
        "— the declaration names a chain with NO actor (events.md §2, ", "protocol.md §2)"]))
  else do
    require delegated.sessionlessSpaceScope
      (.protocol (.concat ["delegated admission requires the acting principal ",
        "(protocol.md §2's server-produced authored row) — a ",
        "userless batch admits only under the declared ",
        "sessionless-space-scope carve-out (SHAPE RULED 2026-08-05)"]))
    require (!present delegated.actingSession)
      (.protocol (.concat ["delegated admission rejected: a sessionless-space-scope ",
        "declaration alongside an acting session is a contradiction ",
        "— the declaration names a chain with NO actor (events.md ", "§2, protocol.md §2)"]))

def checkClass (e : Engine) (o : ApplyCommitOptions) (sessionKey : JsString) :
    Except EngineError Unit :=
  if o.commitClass = .derived then checkDerived e o sessionKey
  else require (o.annotations.isNone && o.consequenceOf.isNone && o.derivedThrough.isNone)
    (.protocol (.concat ["write annotations, consequenceOf, and derivedThrough are ",
      "derived-commit carriage only (protocol.md §1, §7)"]))

/-- The class, the system actor and the delegation of a commit. -/
def checkEnvelope (e : Engine) (o : ApplyCommitOptions) (sessionKey : JsString) :
    Except EngineError Unit := do
  checkClass e o sessionKey
  o.systemEventActor.toList.forM (checkSystemEventActor o)
  o.delegated.toList.forM (checkDelegated o)

/-- A derived write names its key exactly when it is scoped. -/
def checkDerivedScope (o : ApplyCommitOptions) (step : Operation × Nat) :
    Except EngineError Unit :=
  let (operation, opIndex) := step
  if operation.isSqlite then .ok ()
  else
    let declared := normalizeScope operation.scope?
    match declared, o.annotatedKey opIndex with
    | .space, none => .ok ()
    | .space, some annotated => .error (.protocol (.concat
        ["derived-class commit rejected: scope_key annotation ", "\"", annotated,
          "\" targets a space-scoped write ", "(op ", toString opIndex,
          "); addressing is one per SCOPED write ", "(protocol.md §1, §7)"]))
    | _, none => .error (.protocol (.concat
        ["derived-class commit rejected: scoped write (op ", toString opIndex, ", ", "scope \"",
          scopeName declared, "\") carries no explicit scope_key ",
          "annotation (protocol.md §1)"]))
    | _, some annotated => do
      require (isScopeKey annotated) (.protocol (.concat
        ["derived-class commit rejected: annotated scope_key ", "\"", annotated, "\" (op ",
          toString opIndex, ") is not a canonical scope_key ", "(key-vocabulary.md §3)"]))
      require (scopeOfScopeKey annotated = declared) (.protocol (.concat
        ["derived-class commit rejected: annotated scope_key ", "\"", annotated,
          "\" does not match the write's declared scope ", "\"", scopeName declared, "\" (op ",
          toString opIndex, ")"]))

def sessionless (kind shape instance_ : JsString) : EngineError :=
  .protocol (.concat ["delegated admission rejected: a ", kind, " delegated batch ", shape,
    instance_])

/-- A delegation with no session writes no session instance, and one with no user no
user instance. -/
def checkSessionlessWrite (userless : Bool) (operation : Operation) : Except EngineError Unit :=
  match operation with
  | .sqlite op => do
    require (op.dbScope ≠ some .session)
      (sessionless "sessionless" (.concat ["(no actingSession) carries a session-scoped ",
        "SQLite write — a sessionless actor has no session "])
        "instance (scopes.md §5, protocol.md §2's delegated row)")
    require (!(userless && op.dbScope = some .user))
      (sessionless "userless" (.concat ["carries a user-scoped SQLite write — a ",
        "sessionless-space-scope chain has no user instance "]) "(events.md §2, scopes.md §5)")
  | _ => do
    require (normalizeScope operation.scope? ≠ .session)
      (sessionless "sessionless" (.concat ["(no actingSession) carries a session-scoped write ",
        "— a sessionless actor has no session instance "])
        "(scopes.md §5, protocol.md §2's delegated row)")
    require (!(userless && normalizeScope operation.scope? = .user))
      (sessionless "userless" (.concat ["carries a user-scoped write — a sessionless-space-scope ",
        "chain has no user instance "]) "(events.md §2, scopes.md §5)")

/-- The scopes a commit may write at. -/
def checkScopes (o : ApplyCommitOptions) : Except EngineError Unit :=
  if o.commitClass = .derived then o.commit.operations.zipIdx.forM (checkDerivedScope o)
  else .ok ()

def checkSessionless (o : ApplyCommitOptions) : Except EngineError Unit :=
  match o.delegated with
  | some delegated =>
    if present delegated.actingSession then .ok ()
    else o.commit.operations.forM (checkSessionlessWrite (!present delegated.actingPrincipal))
  | none => .ok ()

def checkNonEmpty (o : ApplyCommitOptions) : Except EngineError Unit :=
  require (o.commit.operations ≠ [] || o.commit.preconditions ≠ [] || o.commit.confirmed ≠ [] ||
      o.commit.pending ≠ [] || o.allowEmptyOperations)
    (.error "memory v2 commit requires operations, reads, or preconditions")

def checkBranchActive (s : Store) (branch : BranchName) : Except EngineError Unit := do
  let state ← s.requireBranch branch
  require state.active (.error (.append "branch is not active: " branch))

/-- The hash a value precondition compares: of the document's `value`, if it has one. -/
def currentValueHash (e : Engine) (document : Option EntityDocument) : Option JsString :=
  (document.bind (·.value?)).map e.hashing.commitPreconditionValueHash

def checkPrecondition (e : Engine) (s : Store) (sessionKey : JsString) (branch : BranchName)
    (identity : ScopeKeyIdentity) : CommitPrecondition → Except EngineError Unit
  | .originCommitted originLocalSeq =>
    require (s.selectPendingResolution sessionKey originLocalSeq).isSome
      (.preconditionFailed "origin-committed"
        (.append "origin commit not committed: localSeq " (toString originLocalSeq)))
  | .entityAbsent id scope => do
    let scopeKey ← resolveScopeKey scope identity
    require (s.selectSetDeleteConflict ⟨branch, id, scopeKey⟩ 0 none).isNone
      (.preconditionFailed "receipt-exists"
        (.append "entity-absent precondition target already exists: " id))
  | .entityValueHash id scope valueHash => do
    let document ← s.read noCache ⟨id, scope, identity, branch, none, none⟩
    require (currentValueHash e document = valueHash) (.entityValueHashConflict id)

def validateCommitPreconditions (e : Engine) (s : Store) (sessionKey : JsString)
    (o : ApplyCommitOptions) : Except EngineError Unit :=
  o.commit.preconditions.forM (checkPrecondition e s sessionKey o.branch o.session)

def namesNoLocalSeq (id : EntityId) : EngineError :=
  .protocol (.concat ["pending read on ", id, " names no localSeq"])

/-- A pending read's layers and basis. -/
def checkPendingShape (s : Store) (read : PendingRead) : Except EngineError Unit := do
  require (read.localSeq ≠ []) (namesNoLocalSeq read.id)
  require (read.basisSeq.all (· ≤ s.serverSeq))
    (.protocol (.concat ["pending read on ", read.id, " claims a basisSeq ahead of the log"]))

/-- The text of a stale read's refusal: up to three documents, each with its first
conflict. -/
def staleMessage (conflicts : List ConfirmedReadConflict) : JsString :=
  let firsts := conflicts.foldl (fun seen c =>
    if seen.any fun x => x.of_ = c.of_ then seen else seen ++ [c]) ([] : List ConfirmedReadConflict)
  let preview := (firsts.take 3).map fun c => JsString.concat ["stale confirmed read: ", c.of_,
    " at seq ", toString c.seq, " conflicted with seq ", toString c.conflictSeq]
  let remaining := firsts.length - preview.length
  joinWith "; " (if remaining = 0 then preview else
    preview ++ [.concat [toString remaining, " more conflict", if remaining = 1 then "" else "s"]])

/-- What the check of the confirmed reads has found so far. -/
structure ConfirmedState where
  scans : ConflictScans
  stale : List DocInstance
  conflicts : List ConfirmedReadConflict

/-- The branch a conflict names: none for the default one. -/
def namedBranch (branch : BranchName) : Option BranchName :=
  if branch = DEFAULT_BRANCH then none else some branch

/-- One confirmed read. Further reads of an instance found stale are skipped. -/
def checkConfirmedRead (s : Store) (branch : BranchName) (identity : ScopeKeyIdentity)
    (st : ConfirmedState) (read : ConfirmedRead) : Except EngineError ConfirmedState := do
  let readBranch := read.branch.getD branch
  let _ ← s.requireBranch readBranch
  let scopeKey ← resolveScopeKey read.scope identity
  let doc : DocInstance := ⟨readBranch, read.id, scopeKey⟩
  if st.stale.contains doc then .ok st
  else do
    let (conflictSeq, scans) ←
      s.findConflictSeq st.scans doc read.seq read.path read.nonRecursive none
    match conflictSeq with
    | none => .ok { st with scans }
    | some seq => .ok ⟨scans, st.stale ++ [doc], st.conflicts ++
        [⟨read.id, normalizeScope read.scope, namedBranch readBranch, read.seq, seq⟩]⟩

def validateConfirmedReads (s : Store) (o : ApplyCommitOptions) :
    Except EngineError ConflictScans := do
  let st ← o.commit.confirmed.foldlM (checkConfirmedRead s o.branch o.session) ⟨[], [], []⟩
  require (st.conflicts = []) (.conflict (staleMessage st.conflicts) st.conflicts)
  .ok st.scans

/-- The layers resolved so far with those of one read added. -/
def resolveLayers (s : Store) (sessionKey : JsString) :
    List PendingResolution → List Int → Except EngineError (List PendingResolution)
  | resolutions, [] => .ok resolutions
  | resolutions, localSeq :: rest =>
    if resolutions.any (·.localSeq = localSeq) then resolveLayers s sessionKey resolutions rest
    else match s.selectPendingResolution sessionKey localSeq with
      | none => .error (.conflict (.append "pending dependency not resolved: "
          (toString localSeq)) [])
      | some seq => resolveLayers s sessionKey (resolutions ++ [⟨localSeq, seq⟩]) rest

/-- The resolution of a read's highest layer. -/
def highestLayer (resolutions : List PendingResolution) (layers : List Int) : PendingResolution :=
  let highest := layers.foldl max (layers.headD 0)
  (resolutions.find? fun r => r.localSeq = highest).getD ⟨highest, 0⟩

/-- The seq of a write the pending read conflicts with. A read with a basis is checked
from there, its own layers left out, and once more from its newest identity layer. -/
def pendingConflictSeq (s : Store) (sessionKey : JsString) (scans : ConflictScans)
    (doc : DocInstance) (read : PendingRead) (layerSeq : Nat) :
    Except EngineError (Option Nat × ConflictScans) :=
  match read.basisSeq with
  | none => s.findConflictSeq scans doc layerSeq read.path read.nonRecursive none
  | some basisSeq => do
    let exclude : Option Store.ConflictExclusion := some ⟨sessionKey, read.localSeq⟩
    let (conflictSeq, scans) ←
      s.findConflictSeq scans doc basisSeq read.path read.nonRecursive exclude
    let identityBasis := Identity.identityLayerBasis s sessionKey doc.branch read basisSeq
    if conflictSeq.isSome && basisSeq < identityBasis then
      s.findConflictSeq scans doc identityBasis read.path read.nonRecursive exclude
    else .ok (conflictSeq, scans)

structure PendingState where
  scans : ConflictScans
  resolutions : List PendingResolution

def checkPendingRead (s : Store) (sessionKey : JsString) (branch : BranchName)
    (identity : ScopeKeyIdentity) (checkStaleness : Bool) (st : PendingState)
    (read : PendingRead) : Except EngineError PendingState := do
  require (read.localSeq ≠ []) (namesNoLocalSeq read.id)
  let resolutions ← resolveLayers s sessionKey st.resolutions read.localSeq
  if !checkStaleness then .ok { st with resolutions }
  else do
    let highest := highestLayer resolutions read.localSeq
    let scopeKey ← resolveScopeKey read.scope identity
    let (conflictSeq, scans) ←
      pendingConflictSeq s sessionKey st.scans ⟨branch, read.id, scopeKey⟩ read highest.seq
    match conflictSeq with
    | none => .ok ⟨scans, resolutions⟩
    | some seq => .error (.conflict
        (.concat ["stale pending read: ", read.id, " via localSeq ", toString highest.localSeq,
          " conflicted with seq ", toString seq])
        [⟨read.id, normalizeScope read.scope, namedBranch branch,
          read.basisSeq.getD highest.seq, seq⟩])

def resolvePendingReads (s : Store) (scans : ConflictScans) (sessionKey : JsString)
    (o : ApplyCommitOptions) (checkStaleness : Bool) :
    Except EngineError (List PendingResolution) := do
  let st ← o.commit.pending.foldlM
    (checkPendingRead s sessionKey o.branch o.session checkStaleness) ⟨scans, []⟩
  .ok (st.resolutions.insertionSort (·.localSeq ≤ ·.localSeq))

/-- Every read of the commit, checked for staleness. -/
def validateReads (s : Store) (sessionKey : JsString) (o : ApplyCommitOptions) :
    Except EngineError (List PendingResolution) := do
  let scans ← validateConfirmedReads s o
  resolvePendingReads s scans sessionKey o true

/-- The reads' resolutions and the operations left out. A commit that proves an identity
is admitted over a stale read, with all of its operations elided. -/
structure ReadAdmission where
  resolvedPendingReads : List PendingResolution
  elidedOpIndexes : List Nat
  tookIdentityEscape : Bool

def admitReads (s : Store) (sessionKey : JsString) (o : ApplyCommitOptions)
    (elidedOpIndexes : List Nat) : Except EngineError ReadAdmission := do
  o.commit.pending.forM (checkPendingShape s)
  match validateReads s sessionKey o with
  | .ok resolved => .ok ⟨resolved, elidedOpIndexes, false⟩
  | .error refusal =>
    if refusal.conflictSeq.isNone then .error refusal
    else do
      let identity ← Identity.isIdentityCommit s
        ⟨o.passContext, sessionKey, o.commit, o.elidedVerdicts⟩ elidedOpIndexes
      if !identity then .error refusal
      else do
        let resolved ← resolvePendingReads s [] sessionKey o false
        .ok ⟨resolved, List.range o.commit.operations.length, true⟩

structure Admission where
  reads : ReadAdmission
  plan : EventAppendPlan

/-- Everything a commit is checked for before it takes a seq. -/
def admitCommit (e : Engine) (s : Store) (o : ApplyCommitOptions) (sessionKey : JsString) :
    Except EngineError Admission := do
  e.checks.refuseDeletedSpace s o.space
  checkEnvelope e o sessionKey
  checkScopes o
  checkNonEmpty o
  checkBranchActive s o.branch
  checkSessionless o
  validateCommitPreconditions e s sessionKey o
  let elided ← validateContentAddressed e s o.passContext o.commit.operations
  let reads ← admitReads s sessionKey o elided
  e.checks.admitDroppedLabels s o reads.elidedOpIndexes
  let plan ← validateEventAppends e s o.author o.commit o.branch o.scopeKeyAt
  .ok ⟨reads, plan⟩

def commitRow (o : ApplyCommitOptions) (sessionKey : JsString) (seq : Nat)
    (resolvedPendingReads : List PendingResolution) : CommitRow where
  seq := seq
  branch := o.branch
  sessionId := sessionKey
  localSeq := o.commit.localSeq
  original := o.commit
  resolution := ⟨seq, resolvedPendingReads, []⟩
  commitClass := o.commitClass
  holder := o.storedHolder
  annotations := if o.commitClass = .derived then o.annotations.filter (· ≠ []) else none
  consequenceOf := if o.commitClass = .derived then o.consequenceOf.filter (· ≠ []) else none
  derivedThrough := if o.commitClass = .derived then o.derivedThrough else none
  actingPrincipal := (o.delegated.bind (·.actingPrincipal)).filter (·.units ≠ [])
  actingSession := (o.delegated.bind (·.actingSession)).filter (·.units ≠ [])
  capabilityRef := o.delegated.bind (·.capabilityRef)

/-- The store as the operations before left it, with what they applied. -/
structure WriteState where
  store : Store
  revisions : List AppliedRevision
  operationResolutions : List ApplyOpResolution

def writeContext (o : ApplyCommitOptions) (seq opIndex : Nat) : WriteContext :=
  ⟨o.branch, seq, opIndex, o.actor, o.scopeKeyAt opIndex⟩

/-- A declared append with its stamps. -/
def appendStamped (stamps : List EventAppendStamp) (seq : Nat) (w : DocumentWrite) :
    Except EngineError DocumentWrite :=
  if stamps = [] then .ok w else stampEventAppendOperation w stamps seq

/-- The write as it is stored: a declared append with its stamps, an effects write of a
derived commit with its intents stamped. -/
def effectiveWrite (s : Store) (o : ApplyCommitOptions) (seq opIndex : Nat)
    (stamps : List EventAppendStamp) (w : DocumentWrite) : Except EngineError DocumentWrite := do
  let stamped ← appendStamped stamps seq w
  if o.commitClass = .derived && stamped.id = SERVER_EXECUTION_EFFECTS_DOC_ID then
    .ok (transformEffectsDocOperation s stamped seq o.branch (o.scopeKeyAt opIndex))
  else .ok stamped

/-- Collaborative fields of the document: released by a delete, kept by anything else. -/
def guardFields (e : Engine) (s : Store) (ctx : WriteContext) (w : DocumentWrite) :
    Except EngineError Store :=
  match w.data with
  | .delete => OpField.releaseEntityOperationFields s ctx w
  | _ => do
    OpField.assertOperationFieldsPreserved e s ctx w
    .ok s

/-- A `set`, `patch` or `delete` written, unless it is elided. -/
def writeDocument (e : Engine) (o : ApplyCommitOptions) (a : Admission) (seq opIndex : Nat)
    (st : WriteState) (w : DocumentWrite) : Except EngineError WriteState := do
  let ctx := writeContext o seq opIndex
  let s ← guardFields e st.store ctx w
  if a.reads.elidedOpIndexes.contains opIndex then .ok { st with store := s }
  else do
    let stamps := a.plan.filter (·.opIndex = opIndex)
    let effective ← effectiveWrite s o seq opIndex stamps w
    let (s, revision) ← s.writeOperation ctx effective
    OpField.assertAnchorsWrite s opIndex revision
    .ok { st with store := s, revisions := st.revisions ++ [revision] }

def writeApplyOp (e : Engine) (o : ApplyCommitOptions) (seq opIndex : Nat) (st : WriteState)
    (op : ApplyOpOperation) : Except EngineError WriteState := do
  let ctx := writeContext o seq opIndex
  let scopeKey ← writeScopeKey op.scope ctx.identity ctx.scopeKeyOverride
  let stated ← OpField.withStatedBase e st.store ⟨o.branch, op.id, scopeKey⟩ op
  let (s, applied) ← OpField.applyOperation e st.store ctx stated
  .ok ⟨s, st.revisions ++ applied.revisions, st.operationResolutions ++ [applied.resolution]⟩

/-- One operation of the commit. -/
def writeStep (e : Engine) (o : ApplyCommitOptions) (a : Admission) (seq : Nat)
    (st : WriteState) (step : Operation × Nat) : Except EngineError WriteState :=
  let (operation, opIndex) := step
  match operation with
  | .sqlite op => do
    e.checks.applySqliteCommitWrite st.store op
    .ok st
  | .applyOp op => writeApplyOp e o seq opIndex st op
  | .releaseOpField op => do
    let s ← OpField.releaseOperationField st.store (writeContext o seq opIndex) op
    .ok { st with store := s }
  | .set id scope value => writeDocument e o a seq opIndex st ⟨id, scope, .set value⟩
  | .patch id scope patches => writeDocument e o a seq opIndex st ⟨id, scope, .patch patches⟩
  | .delete id scope => writeDocument e o a seq opIndex st ⟨id, scope, .delete⟩

def latestMaterializationSeq (s : Store) (doc : DocInstance) (seq : Nat) : Nat :=
  let b := s.latestBaseAndSnapshot doc seq .stop false
  max ((b.baseRow.map (·.seq)).getD 0) ((b.snapshotRow.map (·.seq)).getD 0)

def compactSnapshots (e : Engine) (s : Store) (doc : DocInstance) : Store :=
  if e.snapshotRetention = 0 then s else s.deleteOldSnapshots doc e.snapshotRetention

/-- Writes a snapshot of a patched document whose chain has grown to the interval. -/
def maybeMaterializeSnapshot (e : Engine) (s : Store) (doc : DocInstance) :
    Except EngineError Store := do
  match ← s.readStateForScopeKey noCache doc DEFAULT_SCOPE none with
  | none => .ok s
  | some current => match current.document with
    | none => .ok s
    | some document =>
      if !current.row.data.isPatch then .ok s
      else
        let baseSeq := latestMaterializationSeq s doc current.row.seq
        if s.selectPatchCount doc baseSeq current.row.seq < e.snapshotInterval then .ok s
        else .ok (compactSnapshots e (s.insertSnapshot ⟨doc, current.row.seq, document⟩) doc)

/-- The instances revised, each once, in the order they were first written. -/
def revisedDocs (revisions : List AppliedRevision) : List DocInstance :=
  revisions.foldl (fun docs r =>
    if docs.contains r.row.doc then docs else docs ++ [r.row.doc]) []

def materializeSnapshots (e : Engine) (s : Store) (revisions : List AppliedRevision) :
    Except EngineError Store :=
  if e.snapshotInterval = 0 then .ok s
  else (revisedDocs revisions).foldlM (maybeMaterializeSnapshot e) s

/-- The watermarks a derived commit moves. -/
def maintainWatermarks (s : Store) (o : ApplyCommitOptions) (seq : Nat)
    (revisions : List AppliedRevision) : Except EngineError (Store × List AppliedRevision) :=
  if o.commitClass = .derived then
    maintainStreamEventWatermarks s ⟨o.branch, seq, o.sessionId⟩ revisions
  else .ok (s, revisions)

/-- The commit's resolution with those of its operations. -/
def recordResolutions (s : Store) (seq : Nat) (resolved : List PendingResolution)
    (resolutions : List ApplyOpResolution) : Store :=
  if resolutions = [] then s else s.updateCommitResolution seq ⟨seq, resolved, resolutions⟩

/-- The rows of an admitted commit. -/
def writeCommit (e : Engine) (s : Store) (o : ApplyCommitOptions) (sessionKey : JsString)
    (a : Admission) : Except EngineError (Store × AppliedCommit) := do
  let seq := s.nextSeq
  let resolved := a.reads.resolvedPendingReads
  let s ← s.insertCommit (commitRow o sessionKey seq resolved)
  let st ← o.commit.operations.zipIdx.foldlM (writeStep e o a seq) ⟨s, [], []⟩
  let s := recordResolutions st.store seq resolved st.operationResolutions
  e.checks.validateStoredSyncSchemaRefs s o.branch st.revisions o.commit
  let (s, revisions) ← maintainWatermarks s o seq st.revisions
  let s := s.updateBranchHead o.branch seq
  let s ← materializeSnapshots e s revisions
  .ok (s, ⟨seq, o.branch, revisions, st.operationResolutions, a.reads.elidedOpIndexes, false⟩)

def applyCommitTransaction (e : Engine) (s : Store) (o : ApplyCommitOptions) :
    Except EngineError (Store × AppliedCommit) := do
  require (o.commitClass ≠ .derived || e.serverExecution)
    (.protocol (.concat ["derived-class commits are unclaimable while ",
      "EXPERIMENTAL_SERVER_EXECUTION is off (protocol.md §1)"]))
  let sessionKey ← resolveCommitSessionKey o.sessionId o.principal
  match s.selectExistingCommit sessionKey o.commit.localSeq with
  | some existing => (s, ·) <$> replayCommit s o existing
  | none => do
    let a ← admitCommit e s o sessionKey
    writeCommit e s o sessionKey a

end Commit
