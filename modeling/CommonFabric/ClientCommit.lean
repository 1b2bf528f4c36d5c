import CommonFabric.Scope

/-!
# Commits as clients submit them

The shapes a reader can check against the wire types: operations, reads,
preconditions and the admission envelope the server adds. A sequence number, a
path and a document are of their own types here; the engine's checks of the wire
shape of each (`requireReadPath`, `requireConfirmedReadSeq`, the document check of
a `set`) are what those types say. A commit's members that the engine only
records (`genesisRoot`, `spaceKind`, `codeCID`, `merge`) are left out.
-/

structure OpCursor where
  epoch : Nat
  version : Nat
  deriving DecidableEq

/-- What an `apply-op` was written against: nothing stated, the field's baseline,
or a cursor. -/
inductive OpBase where
  | absent
  | baseline
  | cursor (c : OpCursor)
  deriving DecidableEq

structure ApplyOpOperation where
  id : EntityId
  scope : Option CellScope
  path : ValuePath
  codec : JsString
  submissionId : JsString
  base : OpBase
  baselineHash : Option JsString
  payload : FabricValue
  deriving DecidableEq

structure ReleaseOpFieldOperation where
  id : EntityId
  scope : Option CellScope
  path : ValuePath
  codec : JsString
  cursor : OpCursor
  deriving DecidableEq

/-- A statement for an attached database, which writes no entity revision. -/
structure SqliteOperation where
  dbId : EntityId
  dbScope : Option CellScope
  sql : JsString
  deriving DecidableEq

inductive Operation where
  | set (id : EntityId) (scope : Option CellScope) (value : EntityDocument)
  | patch (id : EntityId) (scope : Option CellScope) (patches : List PatchOp)
  | delete (id : EntityId) (scope : Option CellScope)
  | applyOp (op : ApplyOpOperation)
  | releaseOpField (op : ReleaseOpFieldOperation)
  | sqlite (op : SqliteOperation)
  deriving DecidableEq

namespace Operation

/-- The entity an operation names; a `sqlite` operation names none. -/
def id? : Operation → Option EntityId
  | .set id _ _ => some id
  | .patch id _ _ => some id
  | .delete id _ => some id
  | .applyOp op => some op.id
  | .releaseOpField op => some op.id
  | .sqlite _ => none

def scope? : Operation → Option CellScope
  | .set _ scope _ => scope
  | .patch _ scope _ => scope
  | .delete _ scope => scope
  | .applyOp op => op.scope
  | .releaseOpField op => op.scope
  | .sqlite _ => none

/-- The operation's `op` member. -/
def op : Operation → JsString
  | .set .. => "set"
  | .patch .. => "patch"
  | .delete .. => "delete"
  | .applyOp _ => "apply-op"
  | .releaseOpField _ => "release-op-field"
  | .sqlite _ => "sqlite"

def isSqlite : Operation → Bool
  | .sqlite _ => true
  | _ => false

/-- An operation on a collaborative field. -/
def isFieldOperation : Operation → Bool
  | .applyOp _ => true
  | .releaseOpField _ => true
  | _ => false

end Operation

structure ConfirmedRead where
  id : EntityId
  scope : Option CellScope
  branch : Option BranchName
  path : ValuePath
  seq : Nat
  nonRecursive : Bool
  deriving DecidableEq

/-- A read through the session's own pending layers. `localSeq` lists every layer
the view sat on; the wire's scalar form is the list of one. -/
structure PendingRead where
  id : EntityId
  scope : Option CellScope
  path : ValuePath
  localSeq : List Int
  basisSeq : Option Nat
  nonRecursive : Bool
  deriving DecidableEq

inductive CommitPrecondition where
  | originCommitted (originLocalSeq : Int)
  | entityAbsent (id : EntityId) (scope : Option CellScope)
  | entityValueHash (id : EntityId) (scope : Option CellScope) (valueHash : Option JsString)
  deriving DecidableEq

/-- One declared event append: the stream's document and the appended entry's id. -/
structure EventAppendDecl where
  id : EntityId
  scope : Option CellScope
  eventId : JsString
  deriving DecidableEq

structure ClientCommit where
  localSeq : Int
  confirmed : List ConfirmedRead
  pending : List PendingRead
  operations : List Operation
  preconditions : List CommitPrecondition
  branch : Option BranchName
  eventAppends : List EventAppendDecl
  deriving DecidableEq

inductive CommitClass where
  | authored | derived | system
  deriving DecidableEq, Repr

/-- An explicit scope key for one write of a derived commit. -/
structure DerivedWriteAnnotation where
  op : Nat
  scopeKey : Option ScopeKey
  actingUser : Option JsString
  actingSession : Option JsString
  deriving DecidableEq

/-- The originating actor and the grant of a server-produced authored commit. -/
structure Delegated where
  actingPrincipal : Option JsString
  actingSession : Option JsString
  capabilityRef : Option JsString
  sessionlessSpaceScope : Bool
  deriving DecidableEq

structure SystemEventActor where
  principal : JsString
  sessionId : SessionId
  deriving DecidableEq

structure ApplyCommitOptions where
  sessionId : SessionId
  space : Option JsString
  principal : Option JsString
  commit : ClientCommit
  /-- The databases attached for the commit's `sqlite` operations. -/
  sqliteAttachments : List EntityId
  elidedVerdicts : Bool
  commitClass : CommitClass
  holder : Option JsString
  annotations : Option (List DerivedWriteAnnotation)
  allowEmptyOperations : Bool
  consequenceOf : Option (List JsString)
  derivedThrough : Option Nat
  delegated : Option Delegated
  systemEventActor : Option SystemEventActor
  deriving DecidableEq

/-- A commit of operations alone. -/
def ClientCommit.ofOperations (localSeq : Int) (operations : List Operation) : ClientCommit :=
  ⟨localSeq, [], [], operations, [], none, []⟩

/-- An authored commit of a session with no principal. -/
def ApplyCommitOptions.authored (sessionId : SessionId) (commit : ClientCommit) :
    ApplyCommitOptions where
  sessionId := sessionId
  space := none
  principal := none
  commit := commit
  sqliteAttachments := []
  elidedVerdicts := false
  commitClass := .authored
  holder := none
  annotations := none
  allowEmptyOperations := false
  consequenceOf := none
  derivedThrough := none
  delegated := none
  systemEventActor := none
