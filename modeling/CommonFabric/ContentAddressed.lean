import CommonFabric.Streams
import CommonFabric.Worklist

/-!
# Content-addressed documents and the references to them

A `cid:` document is the content its id names: it is set once, at space scope, and
never changed. The pass over a commit's operations collects every schema and label
document their content refers to, and each of these must be in the commit or stored.
-/

namespace ContentAddressed

open Streams (documentValue)

def CID_PREFIX : JsString := "cid:"

def isContentAddressed (id : EntityId) : Bool := id.startsWith CID_PREFIX

def cidOf (hash : JsString) : EntityId := .append CID_PREFIX hash

/-- A document instance as the pass groups operations: the id and the resolved key. -/
structure DocKey where
  id : EntityId
  scopeKey : ScopeKey
  deriving DecidableEq

/-- What the pass reads of a commit. -/
structure PassContext where
  branch : BranchName
  /-- The committing session's own identity. -/
  session : ScopeKeyIdentity
  /-- The actor's, which a delegation replaces. -/
  actor : ScopeKeyIdentity
  scopeKeyAt : Nat → Option ScopeKey

structure PassState where
  requiredSchemaRefs : List JsString
  requiredLabelDocs : List JsString
  cidSetsInCommit : List (EntityId × EntityDocument)
  elidableCidIds : List EntityId
  elidedOpIndexes : List Nat
  stagedMetadataDocs : List (DocKey × Option EntityDocument)

def PassState.initial : PassState := ⟨[], [], [], [], [], []⟩

def PassState.cidSet (st : PassState) (id : EntityId) : Option EntityDocument :=
  (st.cidSetsInCommit.find? fun e => e.1 = id).map (·.2)

def PassState.staged (st : PassState) (key : DocKey) : Option (Option EntityDocument) :=
  (st.stagedMetadataDocs.find? fun e => e.1 = key).map (·.2)

def PassState.stage (st : PassState) (key : DocKey) (document : Option EntityDocument) :
    PassState :=
  { st with stagedMetadataDocs := (key, document) :: st.stagedMetadataDocs }

/-- Adds what a set does not hold yet, in order. -/
def addAll (refs hashes : List JsString) : List JsString :=
  hashes.foldl (fun refs hash => if refs.contains hash then refs else refs ++ [hash]) refs

def PassState.requireSchemas (st : PassState) (hashes : List JsString) : PassState :=
  { st with requiredSchemaRefs := addAll st.requiredSchemaRefs hashes }

def PassState.requireLabels (st : PassState) (hashes : List JsString) : PassState :=
  { st with requiredLabelDocs := addAll st.requiredLabelDocs hashes }

/-- The document references of every link schema in some content. -/
def linkSchemaRefs (e : Engine) (content : FabricValue) : List JsString :=
  if content.isObjectOrArray then
    (e.schemas.linkSchemas content).flatMap e.schemas.externalRefHashes
  else []

def collectLinkSchemaRefs (e : Engine) (st : PassState) (content : FabricValue) : PassState :=
  st.requireSchemas (linkSchemaRefs e content)

/-- The document a label entry refers to, if it refers to one. -/
def labelRef (entry : FabricValue) : Except EngineError (Option JsString) :=
  let label := entry.member "label"
  match label.member "$ref" with
  | .string ref =>
    if label.objectKeys.length ≠ 1 then .ok none
    else do
      require (isContentAddressed ref && ref ≠ CID_PREFIX)
        (.protocol (.concat ["memory v2 commit writes a CFC label reference ", "\x60", ref,
          "\x60 outside the cid: namespace"]))
      .ok (some (ref.slice CID_PREFIX.units.length))
  | _ => .ok none

/-- The schema and label documents an envelope's metadata refers to. -/
def envelopeRefs (metadata : FabricValue) : Except EngineError (List JsString × List JsString) := do
  let schemas := match metadata.member "schemaHash" with
    | .string hash => if hash.units = [] then [] else [hash]
    | _ => []
  let labels ← ((metadata.member "labelMap").member "entries").elements.mapM labelRef
  .ok (schemas, labels.filterMap id)

def collectCfcEnvelopeRef (st : PassState) (metadata : FabricValue) :
    Except EngineError PassState := do
  let (schemas, labels) ← envelopeRefs metadata
  .ok ((st.requireSchemas schemas).requireLabels labels)

/-- `document?.cfc`. -/
def cfcOf (document : Option EntityDocument) : FabricValue :=
  match document with
  | some d => (Fields.get? d.fields "cfc").getD .undefined
  | none => .undefined

/-- A document that carries a numeric label map carries the one it is stored with. -/
def requireInlineLabelMetadata (e : Engine) (id : EntityId) (document : EntityDocument)
    (stored : Except EngineError (Option EntityDocument)) : Except EngineError Unit :=
  match e.schemas.findNumericLabelField document with
  | none => .ok ()
  | some field => do
    let storedMap := (cfcOf (← stored)).member "labelMap"
    require (storedMap ≠ .undefined &&
        valueEqual ((cfcOf (some document)).member "labelMap") storedMap)
      (.protocol (.concat ["memory v2 commit writes document ", id,
        " with a numeric CFC label-map ", field,
        ", which only a transport dictionary could resolve"]))

def collectSchemaMetaRefs (e : Engine) (st : PassState) (id : EntityId)
    (document : EntityDocument) : Except EngineError PassState :=
  match e.schemas.schemaMetaRefHashes document with
  | .ok hashes => .ok (st.requireSchemas hashes)
  | .error reason => .error (.protocol (.concat ["memory v2 commit writes document ", id,
      " with malformed schema metadata: ", reason]))

/-- A pointer to the envelope's metadata, or to all of the envelope. -/
def metadataPointer (pointer : JsString) : Bool :=
  pointer = "" || pointer = "/cfc" || pointer.startsWith "/cfc/" || pointer = "/schema"

def patchTouchesMetadata (patches : List PatchOp) : Bool :=
  patches.any fun p => p.pointers.any metadataPointer

def opDocKey (ctx : PassContext) (opIndex : Nat) (id : EntityId) (scope : Option CellScope) :
    Except EngineError DocKey := do
  let key ← writeScopeKey scope ctx.actor (ctx.scopeKeyAt opIndex)
  .ok ⟨id, key⟩

/-- The instances that some patch of the commit reaches the metadata of. -/
def metadataPatchDocKeys (ctx : PassContext) (operations : List (Operation × Nat)) :
    Except EngineError (List DocKey) :=
  (·.filterMap id) <$> operations.mapM fun (operation, opIndex) => match operation with
    | .patch id scope patches =>
      if !isContentAddressed id && patchTouchesMetadata patches then
        some <$> opDocKey ctx opIndex id scope
      else .ok none
    | _ => .ok none

/-- The instance's document as the operations before this one leave it. -/
def priorDocument (s : Store) (ctx : PassContext) (st : PassState) (opIndex : Nat)
    (scope : Option CellScope) (key : DocKey) : Except EngineError (Option EntityDocument) :=
  match st.staged key with
  | some document => .ok document
  | none => s.read noCache
    ⟨key.id, scope, ctx.actor, ctx.branch, none, ctx.scopeKeyAt opIndex⟩

/-- The content a patch operation writes. -/
def patchContents : PatchOp → List FabricValue
  | .replace _ value => [value]
  | .add _ value => [value]
  | .removeByValue _ value => [value]
  | .splice _ _ _ insert => [.array (insert.map some)]
  | .append _ values _ => [.array (values.map some)]
  | .addUnique _ values _ => [.array (values.map some)]
  | _ => []

/-- A patch list of an instance whose metadata the commit patches: staged, and scanned
where it reaches the metadata itself. One that parses but does not apply is left to
the write. -/
def stageMetadataPatch (e : Engine) (st : PassState) (key : DocKey)
    (base : Option EntityDocument) (patches : List PatchOp) : Except EngineError PassState :=
  match applyPatchToDocument base patches with
  | .error (.invalidPointer message) => .error (.patch (.invalidPointer message))
  | .error _ => .ok st
  | .ok patched =>
    let st := st.stage key (some patched)
    if patchTouchesMetadata patches then do
      requireInlineLabelMetadata e key.id patched (.ok base)
      let st ← collectCfcEnvelopeRef st (cfcOf (some patched))
      collectSchemaMetaRefs e st key.id patched
    else .ok st

/-- Stages a document when the commit patches the instance's metadata. -/
def stageIfPatched (keys : List DocKey) (st : PassState) (key : DocKey)
    (document : Option EntityDocument) : PassState :=
  if keys.contains key then st.stage key document else st

def scanPatch (e : Engine) (s : Store) (ctx : PassContext) (keys : List DocKey) (st : PassState)
    (opIndex : Nat) (id : EntityId) (scope : Option CellScope) (patches : List PatchOp) :
    Except EngineError PassState := do
  let st := (patches.flatMap patchContents).foldl (collectLinkSchemaRefs e) st
  if keys = [] then .ok st
  else do
    let key ← opDocKey ctx opIndex id scope
    if keys.contains key then do
      let base ← priorDocument s ctx st opIndex scope key
      stageMetadataPatch e st key base patches
    else .ok st

def scanSet (e : Engine) (s : Store) (ctx : PassContext) (keys : List DocKey) (st : PassState)
    (opIndex : Nat) (id : EntityId) (scope : Option CellScope) (value : EntityDocument) :
    Except EngineError PassState := do
  let key ← opDocKey ctx opIndex id scope
  requireInlineLabelMetadata e id value (priorDocument s ctx st opIndex scope key)
  let st := collectLinkSchemaRefs e st value.toValue
  let st ← collectCfcEnvelopeRef st (cfcOf (some value))
  let st ← collectSchemaMetaRefs e st id value
  .ok (stageIfPatched keys st key (some value))

/-- The value a `cid:` set installs. -/
def installedInner (value : EntityDocument) : FabricValue := documentValue (some value)

/-- The hash a `cid:` id names. -/
def installedHash (id : EntityId) : JsString := id.slice CID_PREFIX.units.length

def installsVerifiedContent (e : Engine) (id : EntityId) (value : EntityDocument) : Bool :=
  e.hashing.taggedHashStringOf (installedInner value) = installedHash id

/-- The references of content that hashes to its id. -/
def scanInstalled (e : Engine) (s : Store) (ctx : PassContext) (st : PassState) (id : EntityId)
    (value : EntityDocument) : Except EngineError PassState :=
  if !installsVerifiedContent e id value then .ok st
  else do
    let st := if e.schemas.isSubschema (installedInner value) then
        st.requireSchemas (e.schemas.externalRefHashes (installedInner value))
      else collectLinkSchemaRefs e st value.toValue
    requireInlineLabelMetadata e id value
      (s.read noCache ⟨id, none, ⟨none, none⟩, ctx.branch, none, none⟩)
    collectSchemaMetaRefs e st id value

/-- A `cid:` set after an earlier one of the same commit. -/
def repeatedCidSet (st : PassState) (opIndex : Nat) (id : EntityId)
    (earlier value : EntityDocument) : Except EngineError PassState := do
  require (earlier = value)
    (.protocol (.concat ["memory v2 commit carries conflicting sets of content-addressed document ",
      id]))
  .ok (if st.elidableCidIds.contains id then
    { st with elidedOpIndexes := st.elidedOpIndexes ++ [opIndex] } else st)

/-- A commit's first set of a `cid:` document: elided when it is stored already. -/
def firstCidSet (e : Engine) (s : Store) (ctx : PassContext) (st : PassState) (opIndex : Nat)
    (id : EntityId) (scope : Option CellScope) (value : EntityDocument) :
    Except EngineError PassState := do
  let stored ← s.read noCache ⟨id, scope, ctx.session, ctx.branch, none, none⟩
  require (stored.isNone || stored = some value)
    (.protocol (.concat ["memory v2 commit cannot change content-addressed document ", id]))
  require (installsVerifiedContent e id value)
    (.protocol (.concat ["memory v2 commit installs content-addressed document ", id,
      " whose content does not hash to its id"]))
  let st := if stored.isSome then
      { st with
        elidedOpIndexes := st.elidedOpIndexes ++ [opIndex],
        elidableCidIds := st.elidableCidIds ++ [id] }
    else st
  .ok { st with cidSetsInCommit := st.cidSetsInCommit ++ [(id, value)] }

def scanCid (e : Engine) (s : Store) (ctx : PassContext) (st : PassState) (opIndex : Nat)
    (id : EntityId) (operation : Operation) : Except EngineError PassState :=
  match operation with
  | .set _ scope value => do
    require (normalizeScope scope = DEFAULT_SCOPE)
      (.protocol (.concat ["memory v2 commit cannot write content-addressed document ", id, " at ",
        scopeName (normalizeScope scope), " scope"]))
    let st ← scanInstalled e s ctx st id value
    match st.cidSet id with
    | some earlier => repeatedCidSet st opIndex id earlier value
    | none => firstCidSet e s ctx st opIndex id scope value
  | _ => .error (.protocol (.concat ["memory v2 commit cannot ", operation.op,
      " content-addressed document ", id]))

/-- The pass over an operation on a document that is not content-addressed. -/
def scanOrdinary (e : Engine) (s : Store) (ctx : PassContext) (keys : List DocKey)
    (st : PassState) (opIndex : Nat) : Operation → Except EngineError PassState
  | .set id scope value => scanSet e s ctx keys st opIndex id scope value
  | .patch id scope _ => do
    let _ ← opDocKey ctx opIndex id scope
    .ok st
  | .delete id scope => do
    let key ← opDocKey ctx opIndex id scope
    .ok (stageIfPatched keys st key none)
  | _ => .ok st

/-- The references that the content of a patch operation holds. -/
def scanPatches (e : Engine) (s : Store) (ctx : PassContext) (keys : List DocKey)
    (st : PassState) (opIndex : Nat) : Operation → Except EngineError PassState
  | .patch id scope patches => scanPatch e s ctx keys st opIndex id scope patches
  | _ => .ok st

/-- The pass over one operation. -/
def scanOperation (e : Engine) (s : Store) (ctx : PassContext) (keys : List DocKey)
    (st : PassState) (step : Operation × Nat) : Except EngineError PassState := do
  let (operation, opIndex) := step
  match operation.id? with
  | none => .ok st
  | some id => do
    let st ← scanPatches e s ctx keys st opIndex operation
    if isContentAddressed id then scanCid e s ctx st opIndex id operation
    else scanOrdinary e s ctx keys st opIndex operation

/-- `verifySchemaDocument`: the schema a document holds under its hash. -/
def verifySchemaDocument (e : Engine) (hash : JsString) (value : FabricValue) :
    Option FabricValue :=
  if e.schemas.isSubschema value && e.hashing.taggedHashStringOf value = hash then some value
  else none

/-- A value other than `undefined`. -/
def defined (value : FabricValue) : Option FabricValue :=
  if value = .undefined then none else some value

/-- The value of a `cid:` document as the branch reads it. -/
def storedInner (s : Store) (branch : BranchName) (hash : JsString) :
    Except EngineError (Option FabricValue) := do
  let document ← s.read noCache ⟨cidOf hash, none, ⟨none, none⟩, branch, none, none⟩
  .ok (defined (documentValue document))

/-- The value a set of the commit installs under a hash. -/
def includedInner (st : PassState) (hash : JsString) : Option FabricValue :=
  (st.cidSet (cidOf hash)).bind fun d => defined (installedInner d)

/-- The references of the schema document under a hash. -/
def schemaDocumentRefs (e : Engine) (s : Store) (branch : BranchName) (st : PassState)
    (hash : JsString) : Except EngineError (List JsString) :=
  match includedInner st hash with
  | some installed =>
    -- A set of the commit was checked against its id when the pass met it.
    if e.schemas.isSubschema installed then .ok (e.schemas.externalRefHashes installed)
    else match verifySchemaDocument e hash installed with
      | some schema => .ok (e.schemas.externalRefHashes schema)
      | none => .error (.protocol (.concat ["memory v2 commit references schema document ",
          cidOf hash, " whose included content does not verify"]))
  | none => do
    match ← storedInner s branch hash with
    | none => .error (.protocol (.concat ["memory v2 commit references schema document ",
        cidOf hash, " that is neither included in the commit nor stored in the space"]))
    | some value => match verifySchemaDocument e hash value with
      | some schema => .ok (e.schemas.externalRefHashes schema)
      | none => .error (.protocol (.concat ["memory v2 commit references schema document ",
          cidOf hash, " whose stored content does not verify"]))

/-- The hashes under which the commit or the store holds any document. -/
def presentHashes (s : Store) (st : PassState) : List JsString :=
  (st.cidSetsInCommit.map fun e => installedHash e.1) ++
    s.revisions.map fun r => installedHash r.doc.id

/-- `walkSchemaDocumentClosure` from the references the pass collected. -/
def checkSchemaClosure (e : Engine) (s : Store) (branch : BranchName) (st : PassState) :
    Except EngineError Unit :=
  if st.requiredSchemaRefs = [] then .ok ()
  else do
    let _ ← Worklist.walk (schemaDocumentRefs e s branch st) (presentHashes s st)
      (.error "unreachable") [] st.requiredSchemaRefs.reverse
    .ok ()

def isLabelDocumentShape : FabricValue → Bool
  | .record fields => fields.all fun f =>
      (f.1 = "confidentiality" || f.1 = "integrity") && f.2.isArray
  | .special _ _ => true
  | _ => false

/-- The content of a label document: a set of the commit's, or stored and verified. -/
def labelContent (e : Engine) (s : Store) (branch : BranchName) (st : PassState)
    (hash : JsString) : Except EngineError FabricValue :=
  match includedInner st hash with
  | some installed => .ok installed
  | none => do
    match ← storedInner s branch hash with
    | none => .error (.protocol (.concat ["memory v2 commit references CFC label document ",
        cidOf hash, " that is neither included in the commit nor stored in the space"]))
    | some value => do
      require (e.hashing.taggedHashStringOf value = hash)
        (.protocol (.concat ["memory v2 commit references CFC label document ", cidOf hash,
          " whose stored content does not verify"]))
      .ok value

def checkLabelDocument (e : Engine) (s : Store) (branch : BranchName) (st : PassState)
    (hash : JsString) : Except EngineError Unit := do
  let content ← labelContent e s branch st hash
  require (isLabelDocumentShape content)
    (.protocol (.concat ["memory v2 commit references CFC label document ", cidOf hash,
      " whose content does not hold a label"]))

/-- The content-addressed pass over a commit and the check of what it refers to;
returns the indexes of the sets of documents stored already. -/
def validateContentAddressed (e : Engine) (s : Store) (ctx : PassContext)
    (operations : List Operation) : Except EngineError (List Nat) := do
  let steps := operations.zipIdx
  let keys ← metadataPatchDocKeys ctx steps
  let st ← steps.foldlM (scanOperation e s ctx keys) PassState.initial
  checkSchemaClosure e s ctx.branch st
  st.requiredLabelDocs.forM (checkLabelDocument e s ctx.branch st)
  .ok st.elidedOpIndexes

end ContentAddressed

namespace Identity

open ContentAddressed

def COMPACTION_SESSION_PREFIX : JsString := "compaction:"

/-- The oldest row of an instance with the commit it belongs to. -/
def selectOldestRevisionAttribution (s : Store) (doc : DocInstance) :
    Option (RevisionRow × CommitRow) :=
  ((Query.ascending RevisionRow.position (s.rowsOf doc)).filterMap fun r =>
    (s.selectCommit r.commitSeq).map fun c => (r, c)).head?

/-- Compaction cut the instance's history below its oldest row, and the basis is there. -/
def historyCompactedBelow (s : Store) (doc : DocInstance) (basisSeq : Nat) : Bool :=
  match selectOldestRevisionAttribution s doc with
  | some (row, commit) => basisSeq < row.seq && commit.commitClass = .system &&
      commit.sessionId.startsWith COMPACTION_SESSION_PREFIX
  | none => false

/-- One write applied to a possibly absent document. -/
def applyWrite (document : Option EntityDocument) :
    RevisionData → Except EngineError (Option EntityDocument)
  | .set value => .ok (some value)
  | .patch patches => applyRevision document patches
  | .delete => .ok none

/-- `replay`, with the deletes a layer may hold. -/
def replay (base : Option EntityDocument) (writes : List RevisionData) :
    Except EngineError (Option EntityDocument) :=
  writes.foldlM applyWrite base

/-- A read or an operation names the document: the same id at the same scope. -/
def sameDocument (id : EntityId) (scope : Option CellScope) (id' : EntityId)
    (scope' : Option CellScope) : Bool :=
  id' = id && normalizeScope scope' = normalizeScope scope

/-- The seq a branch begins at; none of an unknown branch is below any seq. -/
def beforeBranch (s : Store) (branch : BranchName) (seq : Nat) : Bool :=
  if branch = DEFAULT_BRANCH then false
  else match s.selectBranch branch with
    | some b => seq < b.createdSeq
    | none => true

/-- The document at a seq; nothing stands at seq 0. -/
def documentAtSeq (s : Store) (doc : DocInstance) (seq : Nat) :
    Except EngineError (Option EntityDocument) :=
  if seq = 0 then .ok none else s.documentAt doc (some seq)

/-- The writes of a layer's operations on the document, unless one is of a kind that
cannot be replayed. -/
def layerWrites (id : EntityId) (scope : Option CellScope) (operations : List Operation) :
    Option (List RevisionData) :=
  (operations.filter fun o =>
      o.id?.any fun id' => sameDocument id scope id' o.scope?).mapM fun o =>
    o.write?.map (·.data)

/-- The document a view was computed on, with the writes of the layers it sat on. -/
def replayLayers (s : Store) (sessionKey : JsString) (branch : BranchName) (id : EntityId)
    (scope : Option CellScope) :
    Option EntityDocument → List Int → Except EngineError (Option (Option EntityDocument))
  | document, [] => .ok (some document)
  | document, localSeq :: rest =>
    match s.selectExistingCommit sessionKey localSeq with
    | none => .ok none
    | some row =>
      if row.branch ≠ branch then .ok none
      else match layerWrites id scope row.original.operations with
        | none => .ok none
        | some writes => do
          let document ← replay document writes
          replayLayers s sessionKey branch id scope document rest

/-- What the proof of an identity commit reads of it. -/
structure ProofContext where
  pass : PassContext
  sessionKey : JsString
  commit : ClientCommit
  elidedVerdicts : Bool

/-- `basisOf`: the document the commit's view of an instance was, when that is known. -/
def basisOf (s : Store) (ctx : ProofContext) (doc : DocInstance) (scope : Option CellScope)
    (stored : EntityDocument) : Except EngineError (Option (Option EntityDocument)) :=
  match ctx.commit.pending.find? fun r => sameDocument doc.id scope r.id r.scope with
  | some pending => match pending.basisSeq with
    | none => .ok none
    | some basisSeq =>
      if beforeBranch s doc.branch basisSeq || historyCompactedBelow s doc basisSeq then .ok none
      else do
        let document ← documentAtSeq s doc basisSeq
        replayLayers s ctx.sessionKey doc.branch doc.id scope document
          (pending.localSeq.insertionSort (· ≤ ·))
  | none =>
    match ctx.commit.confirmed.find? fun r =>
        sameDocument doc.id scope r.id r.scope && r.branch.getD doc.branch = doc.branch with
    | none => .ok (some (some stored))
    | some confirmed =>
      if beforeBranch s doc.branch confirmed.seq || historyCompactedBelow s doc confirmed.seq then
        .ok none
      else some <$> documentAtSeq s doc confirmed.seq

/-- The operations of a commit on one instance. -/
structure DocGroup where
  key : DocKey
  scope : Option CellScope
  writes : List RevisionData

/-- Adds a write to its instance's group. -/
def addToGroup (key : DocKey) (scope : Option CellScope) (data : RevisionData) :
    List DocGroup → List DocGroup
  | [] => [⟨key, scope, [data]⟩]
  | g :: rest => if g.key = key then { g with writes := g.writes ++ [data] } :: rest
    else g :: addToGroup key scope data rest

/-- The write of an operation that a proof can replay: a `set` or a `patch`. -/
def setOrPatch? (operation : Operation) : Option DocumentWrite :=
  operation.write?.filter (·.data ≠ .delete)

/-- One operation added to its group, unless it excludes the commit. -/
def groupStep (ctx : PassContext) (elidedOpIndexes : List Nat) (groups : List DocGroup)
    (step : Operation × Nat) : Except EngineError (Option (List DocGroup)) :=
  match setOrPatch? step.1 with
  | none => .ok none
  | some w =>
    if w.id.startsWith "of:did:" then .ok none
    else if isContentAddressed w.id then
      .ok (if elidedOpIndexes.contains step.2 then some groups else none)
    else do
      let key ← opDocKey ctx step.2 w.id w.scope
      .ok (some (addToGroup key w.scope w.data groups))

def groupWrites (ctx : PassContext) (elidedOpIndexes : List Nat) :
    List DocGroup → List (Operation × Nat) → Except EngineError (Option (List DocGroup))
  | groups, [] => .ok (some groups)
  | groups, step :: rest => do
    match ← groupStep ctx elidedOpIndexes groups step with
    | none => .ok none
    | some groups => groupWrites ctx elidedOpIndexes groups rest

/-- The group's writes make the stored document of the view they were computed on, and,
unless the commit's own verdict on that is taken, of the stored document too. -/
def provesIdentity (s : Store) (ctx : ProofContext) (doc : DocInstance) (g : DocGroup)
    (stored : EntityDocument) : Except EngineError Bool := do
  match ← basisOf s ctx doc g.scope stored with
  | none => .ok false
  | some basis => do
    let fromBasis ← replay basis g.writes
    if fromBasis ≠ some stored then .ok false
    else if ctx.elidedVerdicts then .ok true
    else do
      let onStored ← replay (some stored) g.writes
      .ok (onStored = some stored)

def groupIsIdentity (s : Store) (ctx : ProofContext) (g : DocGroup) : Except EngineError Bool := do
  let doc : DocInstance := ⟨ctx.pass.branch, g.key.id, g.key.scopeKey⟩
  match ← s.documentAt doc none with
  | none => .ok false
  | some stored => match provesIdentity s ctx doc g stored with
    | .ok proved => .ok proved
    | .error _ => .ok false

def allIdentity (s : Store) (ctx : ProofContext) : List DocGroup → Except EngineError Bool
  | [] => .ok true
  | g :: rest => do
    if ← groupIsIdentity s ctx g then allIdentity s ctx rest else .ok false

def isIdentityCommit (s : Store) (ctx : ProofContext) (elidedOpIndexes : List Nat) :
    Except EngineError Bool :=
  if ctx.commit.operations = [] then .ok false
  else do
    match ← groupWrites ctx.pass elidedOpIndexes [] ctx.commit.operations.zipIdx with
    | none => .ok false
    | some groups => allIdentity s ctx groups

/-- The operations of a layer on the document, by index, when all are `set` or `patch`. -/
def replayableOpIndexes (read : PendingRead) : List (Operation × Nat) → Option (List Nat)
  | [] => some []
  | (operation, opIndex) :: rest =>
    if operation.id?.any fun id => sameDocument read.id read.scope id operation.scope? then
      match operation with
      | .set _ _ _ => (opIndex :: ·) <$> replayableOpIndexes read rest
      | .patch _ _ _ => (opIndex :: ·) <$> replayableOpIndexes read rest
      | _ => none
    else replayableOpIndexes read rest

/-- The view the layer's identity was proved against is the reader's. -/
def viewIsProved (branch : BranchName) (read : PendingRead) (basisSeq : Nat)
    (layer : ClientCommit) (first : Nat) : Bool :=
  let beginsWithSet := match layer.operations[first]? with
    | some (.set _ _ _) => true
    | _ => false
  let provedPending := layer.pending.find? fun r => sameDocument read.id read.scope r.id r.scope
  beginsWithSet ||
    match provedPending with
    | some proved => proved.basisSeq = some basisSeq &&
        proved.localSeq.all read.localSeq.contains
    | none => (layer.confirmed.find? fun r => sameDocument read.id read.scope r.id r.scope &&
        r.branch.getD branch = branch).any fun proved => proved.seq = basisSeq

def identityLayer (s : Store) (branch : BranchName) (read : PendingRead) (basisSeq : Nat)
    (row : CommitRow) : Bool :=
  row.branch = branch &&
    match replayableOpIndexes read row.original.operations.zipIdx with
    | some (first :: rest) =>
      let written := (s.selectCommitRevisions row.seq).map (·.opIndex)
      !(first :: rest).any written.contains &&
        viewIsProved branch read basisSeq row.original first
    | _ => false

def identityLayerBasis (s : Store) (sessionKey : JsString) (branch : BranchName)
    (read : PendingRead) (basisSeq : Nat) : Nat :=
  read.localSeq.foldl (fun identityBasis localSeq =>
    match s.selectExistingCommit sessionKey localSeq with
    | some row =>
      if identityBasis < row.seq && identityLayer s branch read basisSeq row then row.seq
      else identityBasis
    | none => identityBasis) basisSeq

end Identity
