import CommonFabric.OpFields

/-!
# Stream sidecars and the effects document

A stream's events are the entries of a sidecar document. An authored commit
appends entries it declares, and admission stamps each with the commit's seq; a
derived commit marks their consequences and moves the watermark. An instance of a
registered class shows no members to this code.
-/

namespace JsNumber

/-- `a === b`. -/
def strictEq : JsNumber → JsNumber → Bool
  | .nan, _ => false
  | a, b => a = b || (a.isZero && b.isZero)

/-- `a <= b`. -/
def le (a b : JsNumber) : Bool := a.strictEq b || b.gt a

end JsNumber

namespace FabricValue

/-- `value?.[key]` for a name that no primitive and no array has. -/
def member (value : FabricValue) (key : JsString) : FabricValue :=
  match value with
  | .record fields => (Fields.get? fields key).getD .undefined
  | _ => .undefined

/-- `value[key]`, which throws on `null` and `undefined`. -/
def memberOf (value : FabricValue) (key : JsString) : Except EngineError FabricValue :=
  match value with
  | .null => .error (.error (.concat ["Cannot read properties of null (reading '", key, "')"]))
  | .undefined =>
    .error (.error (.concat ["Cannot read properties of undefined (reading '", key, "')"]))
  | _ => .ok (value.member key)

/-- `typeof value === "object" && value !== null`. -/
def isObjectOrArray : FabricValue → Bool
  | .array _ => true
  | .record _ => true
  | .special _ _ => true
  | _ => false

def isArray : FabricValue → Bool
  | .array _ => true
  | _ => false

/-- `a === b`, where objects are of two decodings and so never the same. -/
def strictEq : FabricValue → FabricValue → Bool
  | .number a, .number b => a.strictEq b
  | .array _, _ => false
  | .record _, _ => false
  | .special _ _, _ => false
  | a, b => a = b

/-- `Object.keys(value ?? {})`. -/
def objectKeys : FabricValue → List JsString
  | .record fields => fields.map (·.1)
  | .array slots => (slots.zipIdx.filter (·.1.isSome)).map fun (_, i) => toString i
  | .string s => (List.range s.units.length).map fun i => toString i
  | _ => []

/-- The elements iteration reads, a hole as `undefined`. -/
def elements : FabricValue → List FabricValue
  | .array slots => slots.map (·.getD .undefined)
  | _ => []

/-- The elements `filter` and `some` visit, which skip holes. -/
def presentElements : FabricValue → List FabricValue
  | .array slots => slots.filterMap id
  | _ => []

end FabricValue

open FabricValue

def PatchOp.path : PatchOp → JsString
  | .replace path _ => path
  | .add path _ => path
  | .remove path => path
  | .move _ path => path
  | .splice path _ _ _ => path
  | .append path _ _ => path
  | .addUnique path _ _ => path
  | .removeByValue path _ => path
  | .increment path _ _ => path

def SERVER_EXECUTION_ATTENTION_DOC_ID : EntityId := "of:server-execution-attention"
def SERVER_EXECUTION_EFFECTS_DOC_ID : EntityId := "of:server-execution-effects"

namespace Streams

def STREAM_ENTRIES_POINTER : JsString := "/value/entries"

/-- Where an appended entry stands in its operation, and the actor it is stamped
with. A `set` has no patch index. -/
structure EventAppendStamp where
  opIndex : Nat
  patchIndex : Option Nat
  valueIndex : Nat
  firedAt : FabricValue
  deriving DecidableEq

structure AppendedEntries where
  values : List FabricValue
  creation : Bool

/-- The entries a patch operation appends to, or writes as, the whole log. -/
def appendedEntriesOfPatch : PatchOp → Option AppendedEntries
  | .append path values _ => if path = STREAM_ENTRIES_POINTER then some ⟨values, false⟩ else none
  | .addUnique path values _ =>
    if path = STREAM_ENTRIES_POINTER then some ⟨values, false⟩ else none
  | .add path value => if path = STREAM_ENTRIES_POINTER then some ⟨value.elements, true⟩ else none
  | .replace path value =>
    if path = STREAM_ENTRIES_POINTER then some ⟨value.elements, true⟩ else none
  | _ => none

def nonArray (id : EntityId) : EngineError :=
  .protocol (.concat ["authored write into stream doc \"", id, "\" carries a non-array \"",
    STREAM_ENTRIES_POINTER, "\" value — the entries log is an ",
    "ARRAY of entries; a non-array log would wedge the pending ", "scan (events.md §1, §4)"])

def writesNonArrayLog : PatchOp → Bool
  | .add path value => path = STREAM_ENTRIES_POINTER && !value.isArray
  | .replace path value => path = STREAM_ENTRIES_POINTER && !value.isArray
  | _ => false

/-- `"entries" in value` with something other than an array there. -/
def hasNonArrayEntries : Option FabricValue → Bool
  | some (.record fields) => (Fields.get? fields "entries").any (!·.isArray)
  | _ => false

def refuseMalformedAuthoredStreamWrites (operations : List Operation)
    (commitClass : CommitClass) (flagOn : Bool) : Except EngineError Unit :=
  if commitClass ≠ .authored then .ok ()
  else operations.forM fun operation =>
    match operation.id? with
    | none => .ok ()
    | some id =>
      if !isStreamEntriesDocId id then .ok ()
      else if !flagOn then
        .error (.protocol (.concat ["authored write into stream doc \"", id, "\" refused: ",
          "stream sidecar docs require EXPERIMENTAL_SERVER_EXECUTION — ",
          "the OFF arm has no event-append admission, and OFF-written ",
          "state (unvalidated shapes, unstamped firedAt actors) would ",
          "poison the first ON activation (events.md §1, §4)"]))
      else match operation with
        | .set _ _ value => require (!hasNonArrayEntries value.value?) (nonArray id)
        | .patch _ _ patches => require (!patches.any writesNonArrayLog) (nonArray id)
        | _ => .ok ()

def refuseAuthoredAttentionIndexWrites (operations : List Operation)
    (commitClass : CommitClass) : Except EngineError Unit :=
  if commitClass ≠ .authored then .ok ()
  else require (!operations.any fun o => o.id? = some SERVER_EXECUTION_ATTENTION_DOC_ID)
    (.protocol (.concat ["authored write to server-owned attention index \"",
      SERVER_EXECUTION_ATTENTION_DOC_ID, "\" refused"]))

def entryFiredAtMatches (supplied stamp : FabricValue) : Except EngineError Bool := do
  let user ← supplied.memberOf "user"
  let session := supplied.member "session"
  .ok ((user = .undefined || user.strictEq (stamp.member "user")) &&
    (session = .undefined || session.strictEq (stamp.member "session")))

def sameEventEntryExceptResolution : FabricValue → FabricValue → Bool
  | .record left, .record right =>
    decide (Fields.erase left "resolution" = Fields.erase right "resolution")
  | _, _ => false

def isNonEmptyString : FabricValue → Bool
  | .string s => s.units ≠ []
  | _ => false

/-- The text of a value known to be a string. -/
def stringOf : FabricValue → JsString
  | .string s => s
  | _ => ""

def isEventAttentionResolution (value : FabricValue) : Bool :=
  value.member "kind" = .string "dismissed" ||
    (value.member "kind" = .string "retried" && isNonEmptyString (value.member "eventId"))

def isUnresolvedAttention (entry : FabricValue) : Bool :=
  entry.member "status" = .string "needs-attention" && entry.member "attention" ≠ .undefined &&
    entry.member "resolution" = .undefined

/-- `document?.value`. -/
def documentValue (document : Option EntityDocument) : FabricValue :=
  (document.bind (·.value?)).getD .undefined

/-- An unresolved entry stands in the resulting log as it was, but for a resolution
that a system commit may add. -/
def retainsUnresolved (commitClass : CommitClass) (resulting : List FabricValue)
    (unresolved : FabricValue) : Bool :=
  match resulting.find? fun entry =>
      (entry.member "eventId").strictEq (unresolved.member "eventId") &&
        (entry.member "seq").strictEq (unresolved.member "seq") with
  | none => false
  | some entry => sameEventEntryExceptResolution unresolved entry &&
      (entry.member "resolution" = .undefined ||
        (commitClass = .system && isEventAttentionResolution (entry.member "resolution")))

/-- The document an operation of another writer leaves of a sidecar with entries that
await attention. -/
def resultingDocument (operation : Operation) (id : EntityId) (current : Option EntityDocument) :
    Except EngineError EntityDocument :=
  match operation with
  | .set _ _ value => .ok value
  | .patch _ _ patches => liftPatch (applyPatchToDocument current patches)
  | .delete _ _ => .error (.protocol (.concat ["stream doc \"", id,
      "\" cannot remove unresolved ", "needs-attention entries (events.md §4)"]))
  | _ => .error (.protocol (.concat ["stream doc \"", id,
      "\" cannot apply or release operation ",
      "fields while it holds unresolved needs-attention entries ", "(events.md §4)"]))

/-- A writer other than an author keeps the entries that await attention. -/
def assertAttentionRetained (e : Engine) (commitClass : CommitClass) (operation : Operation)
    (id : EntityId) (current : Option EntityDocument) (unresolvedEntries : List FabricValue) :
    Except EngineError Unit :=
  if commitClass = .authored ∨ unresolvedEntries = [] then .ok ()
  else do
    let resulting ← resultingDocument operation id current
    let resultingEntries := ((documentValue (some resulting)).member "entries").elements
    unresolvedEntries.forM fun unresolved =>
      require (retainsUnresolved commitClass resultingEntries unresolved)
        (.protocol (.concat ["stream doc \"", id, "\" cannot alter or compact unresolved ",
          "needs-attention event ", e.textOf (unresolved.member "eventId"), " ", "(events.md §4)"]))

/-- Who a commit's events come from. -/
structure EventAuthor where
  commitClass : CommitClass
  principal : Option JsString
  sessionId : SessionId
  delegated : Option Delegated
  systemEventActor : Option SystemEventActor

/-- A `firedAt` record of its members. -/
def firedAtRecord (user : Option JsString) (session : JsString) (clientSeq : FabricValue) :
    FabricValue :=
  let clientSeqField : List (JsString × FabricValue) :=
    if clientSeq = .undefined then [] else [("clientSeq", clientSeq)]
  let userField : List (JsString × FabricValue) := match user with
    | some user => [("user", FabricValue.string user)]
    | none => []
  let sessionField : List (JsString × FabricValue) := [("session", .string session)]
  .record (clientSeqField ++ sessionField ++ userField)

def clientSeqRefused (kind eventId : JsString) : EngineError :=
  .protocol (.concat [kind, " event append ", eventId, " carries a ",
    "clientSeq — client-minted only (events.md §2, LT7)"])

/-- A supplied actor must be the one the stamp names. -/
def requireFiredAtMatches (supplied stamp : FabricValue) (refusal : EngineError) :
    Except EngineError Unit :=
  if supplied = .undefined then .ok ()
  else do
    let ok ← entryFiredAtMatches supplied stamp
    require ok refusal

/-- The session a derived append inherits, or `undefined`. -/
def inheritedSession (supplied : FabricValue) : Except EngineError FabricValue :=
  if supplied = .undefined then .ok .undefined else supplied.memberOf "session"

/-- The actor an appended entry is stamped with. -/
def firedAtStamp (author : EventAuthor) (entry : FabricValue) (eventId : JsString) :
    Except EngineError FabricValue :=
  let supplied := entry.member "firedAt"
  let clientSeq := supplied.member "clientSeq"
  if author.commitClass = .derived then do
    let session ← inheritedSession supplied
    require (isNonEmptyString session)
      (.protocol (.concat ["derived-carried event append ", eventId, " carries no ",
        "inherited firedAt (events.md §2, LT1)"]))
    require (clientSeq = .undefined) (clientSeqRefused "server-originated" eventId)
    .ok supplied
  else match author.systemEventActor, author.delegated with
    | some actor, _ => do
      require (entry.member "retryOf" ≠ .undefined && entry.member "retryOf" ≠ .string "")
        (.protocol (.concat ["system-attributed event append ", eventId, " carries no ",
          "retryOf provenance (events.md §5)"]))
      let stamp := firedAtRecord (some actor.principal) actor.sessionId .undefined
      require (clientSeq = .undefined) (clientSeqRefused "system-attributed" eventId)
      requireFiredAtMatches supplied stamp
        (.protocol (.concat ["event append ", eventId, " supplies a firedAt that ",
          "disagrees with the authenticated Retry actor — REJECTED, ",
          "never corrected (events.md §5)"]))
      .ok stamp
    | none, some delegated => do
      let user := delegated.actingPrincipal.filter (·.units ≠ [])
      let session := (delegated.actingSession.filter (·.units ≠ [])).getD "server"
      let stamp := firedAtRecord user session .undefined
      require (clientSeq = .undefined) (clientSeqRefused "delegated" eventId)
      requireFiredAtMatches supplied stamp
        (.protocol (.concat ["event append ", eventId, " supplies a firedAt that ",
          "disagrees with the validated carried actor — REJECTED, ",
          "never corrected (events.md §1, protocol.md §2)"]))
      .ok stamp
    | none, none => do
      require (present author.principal)
        (.protocol (.concat ["event append ", eventId, " requires an authenticated ",
          "principal to stamp firedAt from (events.md §1)"]))
      let stamp := firedAtRecord author.principal author.sessionId clientSeq
      requireFiredAtMatches supplied stamp
        (.protocol (.concat ["event append ", eventId, " supplies a firedAt that ",
          "disagrees with the authenticated envelope — REJECTED, ",
          "never corrected (events.md §1, protocol.md §2)"]))
      .ok stamp

/-- A declaration's key: the sidecar, its scope and the event. -/
structure DeclKey where
  id : EntityId
  scope : CellScope
  eventId : JsString
  deriving DecidableEq

def declKey (id : EntityId) (scope : Option CellScope) (eventId : JsString) : DeclKey :=
  ⟨id, normalizeScope scope, eventId⟩

def declareAppends : List DeclKey → List EventAppendDecl → Except EngineError (List DeclKey)
  | unmatched, [] => .ok unmatched
  | unmatched, decl :: rest => do
    require (isStreamEntriesDocId decl.id)
      (.protocol (.concat ["event-append declaration targets a non-stream doc \"", decl.id, "\" ",
        "(events.md §1: an event is an append to a stream document — ", "the \"",
        STREAM_ENTRIES_DOC_PREFIX, "\" sidecar)"]))
    let key := declKey decl.id decl.scope decl.eventId
    require (!unmatched.contains key)
      (.protocol (.concat ["duplicate event-append declaration for eventId ", decl.eventId, " ",
        "in one commit (events.md §4)"]))
    declareAppends (unmatched ++ [key]) rest

/-- An appended entry with its place. -/
structure Located where
  entry : FabricValue
  patchIndex : Option Nat
  valueIndex : Nat

def locate (patchIndex : Option Nat) (entries : List FabricValue) : List Located :=
  entries.zipIdx.map fun (entry, valueIndex) => ⟨entry, patchIndex, valueIndex⟩

/-- The refusal of an authored `set` of a sidecar that exists, or with more than its
entries. -/
def checkAuthoredSet (id : EntityId) (value : EntityDocument) (current : Option EntityDocument) :
    Except EngineError Unit := do
  require current.isNone
    (.protocol (.concat ["authored whole-doc set of existing stream doc ", "\"", id,
      "\" refused — append entries with a ", "declared tail append (events.md §1)"]))
  let extraKeys := (objectKeys (documentValue (some value))).filter fun key =>
    key ≠ JsString.ofString "entries"
  require (extraKeys = [])
    (.protocol (.concat ["authored stream-doc creation carries non-entry fields ",
      "(", joinWith ", " extraKeys, ") — the watermark and processing ",
      "state are server-written (events.md §4, §5)"]))

def checkSet (id : EntityId) (authoredShape : Bool) (value : EntityDocument)
    (current : Option EntityDocument) : Except EngineError Unit :=
  if authoredShape then checkAuthoredSet id value current else .ok ()

/-- One patch of a sidecar: the entries it appends, if an author may write it. -/
def locatePatch (id : EntityId) (authoredShape : Bool) (storedEntries : List FabricValue)
    (patchIndex : Nat) (patch : PatchOp) : Except EngineError (List Located) :=
  match appendedEntriesOfPatch patch with
  | none => do
    require (!authoredShape)
      (.protocol (.concat ["authored write into stream doc \"", id, "\" at ", "\"", patch.path,
        "\" refused — entries, the watermark, and ",
        "processing fields are server-written; events append ",
        "via declared tail appends only (events.md §1, §4, §5)"]))
    .ok []
  | some appended => do
    require (!(appended.creation && authoredShape && storedEntries ≠ []))
      (.protocol (.concat ["authored whole-array write of stream doc ", "\"", id,
        "\" entries refused — the log already ",
        "holds entries; append via tail appends (events.md §1)"]))
    .ok (locate (some patchIndex) appended.values)

def locateAppends (id : EntityId) (authoredShape : Bool) (operation : Operation)
    (current : Option EntityDocument) (storedEntries : List FabricValue) :
    Except EngineError (List Located) :=
  match operation with
  | .delete _ _ => do
    require (!authoredShape)
      (.protocol (.concat ["authored deletion of stream doc \"", id, "\" refused ",
        "(events.md §4: compaction is the serving side's, below the ", "watermark only)"]))
    .ok []
  | .set _ _ value => do
    checkSet id authoredShape value current
    .ok (locate none ((documentValue (some value)).member "entries").elements)
  | .patch _ _ patches =>
    (·.flatten) <$> patches.zipIdx.mapM fun (patch, patchIndex) =>
      locatePatch id authoredShape storedEntries patchIndex patch
  | _ => .ok []

def PROCESSING_FIELDS : List JsString :=
  ["consequenced", "error", "status", "reason", "deliveryDeferral", "attention", "resolution",
    "retryOf", "deliveryFailures"]

def isStringValue : FabricValue → Bool
  | .string _ => true
  | _ => false

/-- `streamEntriesDocId(entry.stream)`, of a link whose parts are as supplied. -/
def linkedSidecar (h : Hashing) (stream : FabricValue) : EntityId :=
  let scope : FabricValue := match stream.member "scope" with
    | .undefined => .string "space"
    | .null => .string "space"
    | scope => scope
  .append STREAM_ENTRIES_DOC_PREFIX (h.hashStringOf (.record
    [("id", stream.member "id"), ("path", .array ((stream.member "path").elements.map some)),
      ("scope", scope)]))

def checkEntryShape (e : Engine) (commitClass : CommitClass) (id : EntityId)
    (entry : FabricValue) (eventId : JsString) : Except EngineError Unit := do
  require (entry.member "seq" = .undefined)
    (.protocol (.concat ["event append ", eventId, " pre-supplies the stream seq — ",
      "engine-stamped at apply (events.md §4)"]))
  require (!(commitClass = .authored && PROCESSING_FIELDS.any fun f => entry.member f ≠ .undefined))
    (.protocol (.concat ["event append ", eventId, " pre-supplies processing fields ",
      "— the SpaceServer writes consequences (events.md §5)"]))
  let stream := entry.member "stream"
  require (stream.isObjectOrArray && isStringValue (stream.member "id") &&
      (stream.member "path").isArray)
    (.protocol (.concat ["event append ", eventId, " carries no stream link — ",
      "entries are self-describing (events.md §1)"]))
  require (linkedSidecar e.hashing stream = id)
    (.protocol (.concat ["event append ", eventId, " carries a stream link that ",
      "does not derive the sidecar doc being written ", "(\"", id,
      "\") — the self-describing link and the ", "sidecar id are one derivation (events.md §1)"]))
  let keys := entry.member "runtimeInjectedEventKeys"
  require (keys = .undefined || (keys.isArray && keys.presentElements.all isStringValue))
    (.protocol (.concat ["event append ", eventId, " carries malformed ",
      "runtimeInjectedEventKeys — a present value must be an ",
      "array of strings (events.md §1's entry shape)"]))
  let trusted := entry.member "rendererTrusted"
  require (trusted = .undefined || trusted = .bool true)
    (.protocol (.concat ["event append ", eventId, " carries malformed ",
      "rendererTrusted — a present value must be true (events.md ", "§1's entry shape)"]))

def watermarkOf (value : FabricValue) : JsNumber :=
  match value.member "eventWatermark" with
  | .number n => n
  | _ => .finite 0

/-- Whether a stored entry is above the dedupe horizon. -/
def aboveHorizon (horizon : JsNumber) (existing : FabricValue) : Bool :=
  match existing.member "seq" with
  | .number seq => seq.gt horizon
  | _ => existing.member "consequenced" ≠ .bool true

/-- A sidecar as it stands before the commit. -/
structure StoredLog where
  entries : List FabricValue
  horizon : JsNumber

def storedLogOf (document : Option EntityDocument) : StoredLog :=
  let value := documentValue document
  ⟨(value.member "entries").presentElements, watermarkOf value⟩

/-- Admission of one appended entry: its stamp, and the declarations left. A derived
rewrite of a stored entry takes neither. -/
def admitEntry (e : Engine) (author : EventAuthor) (id : EntityId) (scope : Option CellScope)
    (log : StoredLog) (opIndex : Nat) (unmatched : List DeclKey) (located : Located) :
    Except EngineError (List DeclKey × List EventAppendStamp) := do
  let entry := located.entry
  require entry.isObjectOrArray
    (.protocol (.concat ["stream doc \"", id, "\" appended a non-entry value ", "(events.md §1)"]))
  require (isNonEmptyString (entry.member "eventId"))
    (.protocol (.concat ["stream doc \"", id, "\" appended an entry without an ",
      "eventId (events.md §1)"]))
  let eventId := stringOf (entry.member "eventId")
  if author.commitClass = .derived && entry.member "seq" ≠ .undefined then do
    require (log.entries.any fun stored =>
        (stored.member "eventId").strictEq (entry.member "eventId") &&
          (stored.member "seq").strictEq (entry.member "seq"))
      (.protocol (.concat ["derived rewrite of stream entry ", eventId, " names a ",
        "seq (", e.textOf (entry.member "seq"), ") no stored entry holds — entry seqs ",
        "are engine-stamped, never producer-minted (events.md §4)"]))
    .ok (unmatched, [])
  else do
    let key := declKey id scope eventId
    require (unmatched.contains key)
      (.protocol (.concat ["undeclared event append (eventId ", eventId, ") into ",
        "stream doc \"", id, "\" — every appended entry needs ",
        "its declaration for admission to stamp (events.md §1; ", "protocol.md §2)"]))
    checkEntryShape e author.commitClass id entry eventId
    let firedAt ← firedAtStamp author entry eventId
    require (!log.entries.any fun existing =>
        (existing.member "eventId").strictEq (entry.member "eventId") &&
          aboveHorizon log.horizon existing)
      (.eventAppendDuplicate (.concat ["event append ", eventId, " duplicates a stream entry ",
        "above the dedupe horizon (events.md §4)"]))
    .ok (unmatched.filter (· ≠ key), [⟨opIndex, located.patchIndex, located.valueIndex, firedAt⟩])

/-- The actor's identity, which a delegation replaces. -/
def actorIdentity (principal : Option JsString) (sessionId : SessionId)
    (delegated : Option Delegated) : ScopeKeyIdentity :=
  ⟨(delegated.bind (·.actingPrincipal)).or principal,
    some ((delegated.bind (·.actingSession)).getD sessionId)⟩

abbrev EventAppendPlan := List EventAppendStamp

/-- Admission of one operation's appends. -/
def admitOperation (e : Engine) (s : Store) (author : EventAuthor) (branch : BranchName)
    (scopeKeyAt : Nat → Option ScopeKey) (state : List DeclKey × EventAppendPlan)
    (step : Operation × Nat) : Except EngineError (List DeclKey × EventAppendPlan) := do
  let (operation, opIndex) := step
  match operation.id? with
  | none => .ok state
  | some id =>
    if !isStreamEntriesDocId id then .ok state
    else do
      let current ← s.readState noCache ⟨id, operation.scope?,
        actorIdentity author.principal author.sessionId author.delegated, branch, none,
        scopeKeyAt opIndex⟩
      let document := current.bind (·.document)
      let log := storedLogOf document
      assertAttentionRetained e author.commitClass operation id document
        (log.entries.filter isUnresolvedAttention)
      let located ← locateAppends id (author.commitClass = .authored) operation document log.entries
      located.foldlM (fun (unmatched, plan) l => do
        let (unmatched, stamps) ←
          admitEntry e author id operation.scope? log opIndex unmatched l
        .ok (unmatched, plan ++ stamps)) state

def validateEventAppends (e : Engine) (s : Store) (author : EventAuthor) (commit : ClientCommit)
    (branch : BranchName) (scopeKeyAt : Nat → Option ScopeKey) :
    Except EngineError EventAppendPlan := do
  require (commit.eventAppends = [] || e.serverExecution)
    (.protocol (.concat ["event appends require EXPERIMENTAL_SERVER_EXECUTION ",
      "(events.md §1; the OFF arm has no event-append admission)"]))
  refuseMalformedAuthoredStreamWrites commit.operations author.commitClass e.serverExecution
  refuseAuthoredAttentionIndexWrites commit.operations author.commitClass
  if !e.serverExecution then .ok []
  else do
    let unmatched ← declareAppends [] commit.eventAppends
    let (unmatched, plan) ← commit.operations.zipIdx.foldlM
      (admitOperation e s author branch scopeKeyAt) (unmatched, [])
    require (unmatched = [])
      (.protocol (.concat ["event-append declaration(s) without a matching appended entry: ",
        joinWith ", " (unmatched.map (·.eventId)), " (events.md §1)"]))
    .ok plan

def planDiverged : EngineError :=
  .protocol (.concat ["event-append stamp plan does not match the operation shape ",
    "(engine bug — the plan and the clone diverged)"])

/-- The entry with its seq and its actor written. -/
def stampEntry (seq : Nat) (stamp : EventAppendStamp) : FabricValue → Except EngineError FabricValue
  | .record fields => .ok (.record (Fields.set (Fields.set fields "seq" (.number (.ofNat seq)))
      "firedAt" stamp.firedAt))
  | _ => .error planDiverged

def stampValues (seq : Nat) (stamp : EventAppendStamp) (values : List FabricValue) :
    Except EngineError (List FabricValue) :=
  match values[stamp.valueIndex]? with
  | some entry => (values.set stamp.valueIndex ·) <$> stampEntry seq stamp entry
  | none => .error planDiverged

def stampArray (seq : Nat) (stamp : EventAppendStamp) : FabricValue → Except EngineError FabricValue
  | .array slots => match slots[stamp.valueIndex]?.join with
    | some entry =>
      (fun v => .array (slots.set stamp.valueIndex (some v))) <$> stampEntry seq stamp entry
    | none => .error planDiverged
  | _ => .error planDiverged

def stampPatch (seq : Nat) (stamp : EventAppendStamp) (patch : PatchOp) :
    Except EngineError PatchOp :=
  if (appendedEntriesOfPatch patch).isNone then .error planDiverged
  else match patch with
    | .append path values createsKey =>
      (.append path · createsKey) <$> stampValues seq stamp values
    | .addUnique path values createsKey =>
      (.addUnique path · createsKey) <$> stampValues seq stamp values
    | .add path value => .add path <$> stampArray seq stamp value
    | .replace path value => .replace path <$> stampArray seq stamp value
    | _ => .error planDiverged

/-- A document with the stamp written into its entries. -/
def stampDocument (seq : Nat) (stamp : EventAppendStamp) (d : EntityDocument) :
    Except EngineError EntityDocument :=
  match d.value? with
  | some (.record fields) => do
    let entries ← stampArray seq stamp ((Fields.get? fields "entries").getD .undefined)
    .ok ⟨Fields.set d.fields "value" (.record (Fields.set fields "entries" entries))⟩
  | _ => .error planDiverged

def stampData (seq : Nat) (stamp : EventAppendStamp) (data : RevisionData) :
    Except EngineError RevisionData :=
  match data, stamp.patchIndex with
  | .set d, _ => .set <$> stampDocument seq stamp d
  | .patch patches, some patchIndex => match patches[patchIndex]? with
    | some patch => (fun p => .patch (patches.set patchIndex p)) <$> stampPatch seq stamp patch
    | none => .error planDiverged
  | _, _ => .error planDiverged

def stampEventAppendOperation (w : DocumentWrite) (stamps : List EventAppendStamp) (seq : Nat) :
    Except EngineError DocumentWrite := do
  let data ← stamps.foldlM (fun data stamp => stampData seq stamp data) w.data
  .ok { w with data }

def isEffectIntentShaped (value : FabricValue) : Bool :=
  value.isObjectOrArray && isStringValue (value.member "nonce") &&
    value.member "kind" = .string "navigate"

def isUnstampedEffectIntent (value : FabricValue) : Bool :=
  isEffectIntentShaped value && value.member "issuedIn" = .null

/-- The depth at which the walks of an operation's content stop. -/
def EFFECT_DEPTH : Nat := 9

def hasIntent : Nat → FabricValue → Bool
  | 0, _ => false
  | depth + 1, value => value.isObjectOrArray && (isEffectIntentShaped value ||
      match value with
      | .array slots => (slots.filterMap id).any (hasIntent depth)
      | .record fields => fields.any fun f => hasIntent depth f.2
      | _ => false)

/-- The content with each unstamped intent stamped. -/
def stampIntents (seq : Nat) : Nat → FabricValue → FabricValue
  | 0, value => value
  | depth + 1, value =>
    match value with
    | .array slots => .array (slots.map fun s => s.map (stampIntents seq depth))
    | .record fields =>
      if isUnstampedEffectIntent value then
        .record (Fields.set fields "issuedIn" (.number (.ofNat seq)))
      else .record (fields.map fun f => (f.1, stampIntents seq depth f.2))
    | value => value

def patchHasIntent : PatchOp → Bool
  | .replace _ value => hasIntent EFFECT_DEPTH value
  | .add _ value => hasIntent EFFECT_DEPTH value
  | .removeByValue _ value => hasIntent EFFECT_DEPTH value
  | .append _ values _ => hasIntent EFFECT_DEPTH (.array (values.map some))
  | .addUnique _ values _ => hasIntent EFFECT_DEPTH (.array (values.map some))
  | _ => false

/-- Appended values without the intents whose nonce is stored, the rest stamped. -/
def stampAppended (seq : Nat) (storedNonces : List FabricValue) (values : List FabricValue) :
    List FabricValue :=
  (values.filter fun item =>
    !(isEffectIntentShaped item && storedNonces.contains (item.member "nonce"))).map
      (stampIntents seq (EFFECT_DEPTH - 1))

def stampEffectsPatch (seq : Nat) (storedNonces : List FabricValue) : PatchOp → PatchOp
  | .append path values c => .append path (stampAppended seq storedNonces values) c
  | .addUnique path values c => .addUnique path (stampAppended seq storedNonces values) c
  | .replace path value => .replace path (stampIntents seq EFFECT_DEPTH value)
  | .add path value => .add path (stampIntents seq EFFECT_DEPTH value)
  | .removeByValue path value => .removeByValue path (stampIntents seq EFFECT_DEPTH value)
  | p => p

/-- The nonces stored in the effects document; a read that fails finds none. -/
def storedNonces (s : Store) (w : DocumentWrite) (branch : BranchName)
    (scopeKey : Option ScopeKey) : List FabricValue :=
  match s.readState noCache ⟨w.id, w.scope, ⟨none, none⟩, branch, none, scopeKey⟩ with
  | .ok state =>
    let entries := ((documentValue (state.bind (·.document))).member "entries").elements
    (entries.filter isEffectIntentShaped).map (·.member "nonce")
  | .error _ => []

def transformEffectsDocOperation (s : Store) (w : DocumentWrite) (seq : Nat)
    (branch : BranchName) (scopeKey : Option ScopeKey) : DocumentWrite :=
  match w.data with
  | .set d =>
    if hasIntent EFFECT_DEPTH (documentValue (some d)) then
      { w with data := .set ⟨Fields.set d.fields "value"
        (stampIntents seq EFFECT_DEPTH (documentValue (some d)))⟩ }
    else w
  | .patch patches =>
    if patches.any patchHasIntent then
      let nonces := storedNonces s w branch scopeKey
      { w with data := .patch (patches.map (stampEffectsPatch seq nonces)) }
    else w
  | .delete => w

/-- The last revision of each sidecar, in the order they were first touched. -/
def touch : List AppliedRevision → AppliedRevision → List AppliedRevision
  | [], r => [r]
  | t :: rest, r => if t.row.doc = r.row.doc then r :: rest else t :: touch rest r

def touchedSidecars (revisions : List AppliedRevision) : List AppliedRevision :=
  (revisions.filter fun r => isStreamEntriesDocId r.row.doc.id).foldl touch []

/-- The seqs of the entries that are numbers, each once, ascending. -/
def entrySeqs (entries : List FabricValue) : List JsNumber :=
  let seqs := entries.filterMap fun entry => match entry.member "seq" with
    | .number n => some n
    | _ => none
  (seqs.pwFilter fun a b => !a.strictEq b).insertionSort fun a b => !a.gt b

/-- Every entry of the seq has its consequence. -/
def consequencedAt (entries : List FabricValue) (seq : JsNumber) : Bool :=
  (entries.filter fun entry => (entry.member "seq").strictEq (.number seq)).all
    fun entry => entry.member "consequenced" = .bool true

/-- The frontier moved over the seqs in order, up to one with an entry that waits. -/
def advance (entries : List FabricValue) : JsNumber → List JsNumber → JsNumber
  | frontier, [] => frontier
  | frontier, seq :: rest =>
    if seq.le frontier then advance entries frontier rest
    else if consequencedAt entries seq then advance entries seq rest
    else frontier

def nextSyntheticOpIndex (revisions : List AppliedRevision) : Nat :=
  (revisions.map (·.row.opIndex + 1)).foldl max 0

def watermarkWrite (revision : AppliedRevision) (frontier : JsNumber) : DocumentWrite :=
  ⟨revision.row.doc.id, revision.scope,
    .patch [.replace "/value/eventWatermark" (.number frontier)]⟩

/-- The watermark a touched sidecar moves to, when it moves. -/
def nextWatermark (s : Store) (branch : BranchName) (revision : AppliedRevision) :
    Except EngineError (Option JsNumber) := do
  let doc : DocInstance := ⟨branch, revision.row.doc.id, revision.row.doc.scopeKey⟩
  let state ← s.readStateForScopeKey noCache doc (normalizeScope revision.scope) none
  let value := documentValue (state.bind (·.document))
  if value = .undefined then .ok none
  else do
    let stored ← value.memberOf "eventWatermark"
    let entries := ((value.member "entries").presentElements).filter isObjectOrArray
    let frontier := advance entries (watermarkOf value) (entrySeqs entries)
    match stored with
    | .number n => .ok (if frontier.strictEq n then none else some frontier)
    | _ => .ok (some frontier)

/-- What the maintenance of the watermarks runs in. -/
structure WatermarkContext where
  branch : BranchName
  seq : Nat
  sessionId : SessionId

def maintainWatermark (ctx : WatermarkContext)
    (state : Store × Nat × List AppliedRevision) (revision : AppliedRevision) :
    Except EngineError (Store × Nat × List AppliedRevision) := do
  let (s, opIndex, written) := state
  match ← nextWatermark s ctx.branch revision with
  | none => .ok state
  | some frontier => do
    let (s, applied) ← s.writeOperation
      ⟨ctx.branch, ctx.seq, opIndex, ⟨none, some ctx.sessionId⟩, some revision.row.doc.scopeKey⟩
      (watermarkWrite revision frontier)
    .ok (s, opIndex + 1, written ++ [applied])

/-- Each touched sidecar's watermark recomputed; the revisions this adds are
returned after those of the commit's operations. -/
def maintainStreamEventWatermarks (s : Store) (ctx : WatermarkContext)
    (revisions : List AppliedRevision) : Except EngineError (Store × List AppliedRevision) := do
  let (s, _, written) ← (touchedSidecars revisions).foldlM (maintainWatermark ctx)
    (s, nextSyntheticOpIndex revisions, [])
  .ok (s, revisions ++ written)

end Streams
