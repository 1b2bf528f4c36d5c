import CommonFabric.SchemaRefs
import CommonFabric.ServerSync

/-!
# The schema table of a frame

A frame carries each distinct schema of its documents' links and of its crossings once, in
a table by hash, and a reference to the table where the schema stood. What a receiver
expands is the frame as it was, provided its links are envelopes around a payload alone.
-/

/-- A link a walk followed out of the space. -/
structure SyncCrossing where
  space : JsString
  id : EntityId
  scope : Option CellScope
  path : List JsString
  schema : Option FabricValue
  deriving DecidableEq

/-- A frame with the crossings it reports. -/
structure CrossingSync extends SessionSync where
  crossings : Option (List SyncCrossing)
  deriving DecidableEq

abbrev SchemaTable := JsMap JsString FabricValue

structure SchemaTableSessionSync extends CrossingSync where
  schemaTable : Option SchemaTable

namespace SchemaTable

open CellRep

structure RewriteState where
  schemas : JsMap JsString FabricValue
  changed : Bool

def isSchemaDocumentRefOnly : FabricValue → Bool
  | .record [(key, .string ref)] => key = "$ref" && ref.startsWith "cid:"
  | _ => false

def isCompressibleSchema (value : FabricValue) : Bool :=
  (match value with
    | .bool _ => true
    | .record _ => true
    | _ => false) && !isSchemaDocumentRefOnly value

section
variable (modern : Bool) (taggedHash : FabricValue → JsString)

def refText (hash : JsString) : JsString := .append SYNC_SCHEMA_REF_PREFIX hash

/-- The table reference of a schema, which is entered under its hash unless one is there.
`internSchema` answers a schema of the same content and its hash. -/
def schemaRefFor (schema : FabricValue) : StateM RewriteState JsString := do
  let hash := taggedHash schema
  modify fun state => if state.schemas.has hash then state
    else { state with schemas := state.schemas.set hash schema }
  pure (refText hash)

def rewriteSchemaValue (value : FabricValue) : StateM RewriteState FabricValue :=
  if isCompressibleSchema value then do
    modify fun state => { state with changed := true }
    let ref ← schemaRefFor taggedHash value
    pure (.string ref)
  else pure value

def rewriteValue (value : FabricValue) : StateM RewriteState FabricValue :=
  mapLinkSchemas modern (rewriteSchemaValue taggedHash) value

/-- The document a walked one is taken for: a record is walked to a record. -/
def asDocument : FabricValue → EntityDocument
  | .record fields => ⟨fields⟩
  | _ => ⟨[]⟩

def rewriteUpsert (upsert : SessionSyncUpsert) : StateM RewriteState SessionSyncUpsert :=
  match upsert.doc with
  | none => pure upsert
  | some doc => do
    let doc ← rewriteValue modern taggedHash doc.toValue
    pure { upsert with doc := some (asDocument doc) }

def rewriteCrossing (crossing : SyncCrossing) : StateM RewriteState SyncCrossing :=
  match crossing.schema with
  | none => pure crossing
  | some schema => do
    let schema ← rewriteSchemaValue taggedHash schema
    pure { crossing with schema := some schema }

def compressSessionSyncSchemas (sync : CrossingSync) : SchemaTableSessionSync :=
  let rewritten : StateM RewriteState (List SessionSyncUpsert × Option (List SyncCrossing)) := do
    let upserts ← sync.upserts.mapM (rewriteUpsert modern taggedHash)
    let crossings ← sync.crossings.mapM (·.mapM (rewriteCrossing taggedHash))
    pure (upserts, crossings)
  let ((upserts, crossings), state) := rewritten.run ⟨.empty, false⟩
  if !state.changed then { sync with schemaTable := none }
  else { sync with upserts, crossings, schemaTable := some state.schemas }

/-- The schema a table reference stands for; `none` for what is not one. -/
def expandSchemaRef (schemas : Option SchemaTable) :
    FabricValue → Except JsString (Option FabricValue)
  | .string ref =>
    if ref.startsWith SYNC_SCHEMA_REF_PREFIX then
      let hash := ref.slice SYNC_SCHEMA_REF_PREFIX.units.length
      if hash.units = [] then
        .error (.concat ["Invalid sync schema table reference: ", ref])
      else match schemas.bind (·.get hash) with
        | none => .error (.concat ["Invalid sync schema table reference: ", ref])
        | some schema =>
          if taggedHash schema ≠ hash then
            .error (.concat ["Invalid sync schema table content for reference: ", ref])
          else .ok (some schema)
    else .ok none
  | _ => .ok none

def expandSchemaValue (schemas : Option SchemaTable) (value : FabricValue) :
    Except JsString FabricValue := do
  let expanded ← expandSchemaRef taggedHash schemas value
  pure (expanded.getD value)

def expandValue (schemas : Option SchemaTable) (value : FabricValue) : Except JsString FabricValue :=
  mapLinkSchemas modern (expandSchemaValue taggedHash schemas) value

def expandCrossing (schemas : Option SchemaTable) (crossing : SyncCrossing) :
    Except JsString SyncCrossing :=
  match crossing.schema with
  | none => pure crossing
  | some schema => do
    let expanded ← expandSchemaRef taggedHash schemas schema
    match expanded with
    | none => pure crossing
    | some schema => pure { crossing with schema := some schema }

/-- The reference a document of a frame without a table holds has nothing to resolve it. -/
def refuseUpsertRef (schemas : Option SchemaTable) (upsert : SessionSyncUpsert) :
    Except JsString Unit :=
  match upsert.doc.bind fun doc => findSyncSchemaRef modern doc.toValue with
  | none => pure ()
  | some ref => do
    let _ ← expandSchemaRef taggedHash schemas (.string ref)
    pure ()

def expandUpsert (schemas : Option SchemaTable) (upsert : SessionSyncUpsert) :
    Except JsString SessionSyncUpsert :=
  match upsert.doc with
  | none => pure upsert
  | some doc => do
    let doc ← expandValue modern taggedHash schemas doc.toValue
    match findSyncSchemaRef modern doc with
    | some leftover => .error (.concat ["Unexpanded sync schema table reference: ", leftover])
    | none => pure { upsert with doc := some (asDocument doc) }

def expandSessionSyncSchemas (sync : SchemaTableSessionSync) : Except JsString CrossingSync := do
  let schemas := sync.schemaTable
  if schemas.all (·.entries.isEmpty) then
    sync.upserts.forM (refuseUpsertRef modern taggedHash schemas)
    let _ ← sync.crossings.mapM (·.mapM (expandCrossing taggedHash schemas))
    pure sync.toCrossingSync
  else
    let upserts ← sync.upserts.mapM (expandUpsert modern taggedHash schemas)
    let crossings ← sync.crossings.mapM (·.mapM (expandCrossing taggedHash schemas))
    pure { sync.toCrossingSync with upserts, crossings }

end

section
variable {modern : Bool} {taggedHash : FabricValue → JsString}

def enter (taggedHash : FabricValue → JsString) (state : RewriteState) (schema : FabricValue) :
    RewriteState :=
  if isCompressibleSchema schema then
    ⟨if state.schemas.has (taggedHash schema) then state.schemas
      else state.schemas.set (taggedHash schema) schema, true⟩
  else state

/-- What stands in a frame for a schema. -/
def tabled (taggedHash : FabricValue → JsString) (schema : FabricValue) : FabricValue :=
  if isCompressibleSchema schema then .string (refText (taggedHash schema)) else schema

theorem rewriteSchemaValue_eq (schema : FabricValue) :
    rewriteSchemaValue taggedHash schema = (do
      modify fun state => enter taggedHash state schema
      pure (tabled taggedHash schema)) := by
  funext state
  simp only [rewriteSchemaValue, enter, tabled]
  split
  · show (_, _) = (_, _)
    congr 1
    dsimp only
    split <;> rfl
  · rfl

def upsertSchemas (modern : Bool) (upsert : SessionSyncUpsert) : List FabricValue :=
  match upsert.doc with
  | none => []
  | some doc => schemasOf modern doc.toValue

def crossingSchemas (crossing : SyncCrossing) : List FabricValue := crossing.schema.toList

/-- The schemas of a frame's documents and crossings. -/
def syncSchemas (modern : Bool) (sync : CrossingSync) : List FabricValue :=
  sync.upserts.flatMap (upsertSchemas modern) ++ (sync.crossings.getD []).flatMap crossingSchemas

def tabledUpsert (modern : Bool) (taggedHash : FabricValue → JsString)
    (upsert : SessionSyncUpsert) : SessionSyncUpsert :=
  match upsert.doc with
  | none => upsert
  | some doc =>
    { upsert with doc := some (asDocument (mapped modern (tabled taggedHash) doc.toValue)) }

def tabledCrossing (taggedHash : FabricValue → JsString) (crossing : SyncCrossing) :
    SyncCrossing :=
  { crossing with schema := crossing.schema.map (tabled taggedHash) }

theorem rewriteUpsert_eq (upsert : SessionSyncUpsert) :
    rewriteUpsert modern taggedHash upsert = (do
      (upsertSchemas modern upsert).forM fun schema =>
        modify fun state => enter taggedHash state schema
      pure (tabledUpsert modern taggedHash upsert)) := by
  obtain ⟨_, _, _, _, _, doc, _, _⟩ := upsert
  cases doc with
  | none => rfl
  | some doc =>
    have hwalk : Walks modern (rewriteSchemaValue taggedHash) _ (tabled taggedHash) doc.toValue :=
      mapLinkSchemas_eq rewriteSchemaValue_eq doc.toValue
    rw [Walks] at hwalk
    simp only [rewriteUpsert, rewriteValue, hwalk, upsertSchemas, tabledUpsert, bind_assoc, pure_bind]

theorem rewriteCrossing_eq (crossing : SyncCrossing) :
    rewriteCrossing taggedHash crossing = (do
      (crossingSchemas crossing).forM fun schema =>
        modify fun state => enter taggedHash state schema
      pure (tabledCrossing taggedHash crossing)) := by
  obtain ⟨_, _, _, _, schema⟩ := crossing
  cases schema with
  | none => rfl
  | some schema =>
    simp only [rewriteCrossing, rewriteSchemaValue_eq, crossingSchemas, tabledCrossing]
    rfl

theorem forM_enter (schemas : List FabricValue) (state : RewriteState) :
    (schemas.forM fun schema => modify fun state => enter taggedHash state schema :
      StateM RewriteState Unit).run state = ((), schemas.foldl (enter taggedHash) state) := by
  induction schemas generalizing state with
  | nil => rfl
  | cons schema schemas ih => exact ih _

/-- The table of a frame, and whether there is anything in it. -/
def entered (modern : Bool) (taggedHash : FabricValue → JsString) (sync : CrossingSync) :
    RewriteState := (syncSchemas modern sync).foldl (enter taggedHash) ⟨.empty, false⟩

theorem compressSessionSyncSchemas_eq (sync : CrossingSync) :
    compressSessionSyncSchemas modern taggedHash sync =
      if !(entered modern taggedHash sync).changed then { sync with schemaTable := none }
      else { sync with
        upserts := sync.upserts.map (tabledUpsert modern taggedHash)
        crossings := sync.crossings.map (·.map (tabledCrossing taggedHash))
        schemaTable := some (entered modern taggedHash sync).schemas } := by
  have hcrossings : sync.crossings.mapM (·.mapM (rewriteCrossing taggedHash)) = (do
      ((sync.crossings.getD []).flatMap crossingSchemas).forM fun schema =>
        modify fun state => enter taggedHash state schema
      pure (sync.crossings.map (·.map (tabledCrossing taggedHash)))) := by
    cases sync.crossings with
    | none => rfl
    | some crossings =>
      rw [Option.mapM_some, mapM_walks rewriteCrossing_eq]
      rfl
  have hrun : (do
      let upserts ← sync.upserts.mapM (rewriteUpsert modern taggedHash)
      let crossings ← sync.crossings.mapM (·.mapM (rewriteCrossing taggedHash))
      pure (upserts, crossings) : StateM RewriteState _).run ⟨.empty, false⟩ =
      ((sync.upserts.map (tabledUpsert modern taggedHash),
        sync.crossings.map (·.map (tabledCrossing taggedHash))), entered modern taggedHash sync) := by
    rw [mapM_walks rewriteUpsert_eq, hcrossings, entered, syncSchemas]
    simp only [bind_assoc, pure_bind, StateT.run_bind, forM_enter, StateT.run_pure,
      List.foldl_append]
    rfl
  simp only [compressSessionSyncSchemas, hrun]

/-- The table after some schemas were rewritten: an entry for each that has one, and no other. -/
structure Entered (taggedHash : FabricValue → JsString) (schemas : List FabricValue)
    (state : RewriteState) : Prop where
  changed : state.changed = schemas.any isCompressibleSchema
  sound : ∀ entry ∈ state.schemas.entries, entry.2 ∈ schemas ∧
    isCompressibleSchema entry.2 = true ∧ entry.1 = taggedHash entry.2
  complete : ∀ schema ∈ schemas, isCompressibleSchema schema = true →
    state.schemas.has (taggedHash schema) = true

theorem Entered.enter {schemas : List FabricValue} {state : RewriteState}
    (h : Entered taggedHash schemas state) (schema : FabricValue) :
    Entered taggedHash (schemas ++ [schema]) (enter taggedHash state schema) := by
  rw [SchemaTable.enter]
  by_cases hschema : isCompressibleSchema schema = true
  · rw [if_pos hschema]
    refine ⟨by simp [hschema], fun entry hentry => ?_, fun other hother hcompressible => ?_⟩
    · dsimp only at hentry
      have hold : entry ∈ state.schemas.entries → entry.2 ∈ schemas ++ [schema] ∧
          isCompressibleSchema entry.2 = true ∧ entry.1 = taggedHash entry.2 := fun hentry =>
        (h.sound entry hentry).imp_left (List.mem_append_left _)
      split at hentry
      · exact hold hentry
      · rcases JsMap.mem_setEntries hentry with rfl | hentry
        · exact ⟨by simp, hschema, rfl⟩
        · exact hold hentry
    · rcases List.mem_append.1 hother with hother | hother
      · have hhas := h.complete other hother hcompressible
        dsimp only
        split
        · exact hhas
        · rw [JsMap.has, JsMap.get_set] at *
          split
          · rfl
          · exact hhas
      · obtain rfl := List.mem_singleton.1 hother
        dsimp only
        split
        · assumption
        · rw [JsMap.has, JsMap.get_set_self]
          rfl
  · rw [if_neg hschema]
    refine ⟨by simp [hschema, h.changed], fun entry hentry =>
      (h.sound entry hentry).imp_left (List.mem_append_left _), fun other hother hcompressible => ?_⟩
    rcases List.mem_append.1 hother with hother | hother
    · exact h.complete other hother hcompressible
    · exact absurd (List.mem_singleton.1 hother ▸ hcompressible) hschema

theorem Entered.foldl {schemas : List FabricValue} {state : RewriteState}
    (h : Entered taggedHash schemas state) (more : List FabricValue) :
    Entered taggedHash (schemas ++ more) (more.foldl (SchemaTable.enter taggedHash) state) := by
  induction more generalizing schemas state with
  | nil => simpa using h
  | cons schema more ih => simpa using ih (h.enter schema)

theorem entered_entered (sync : CrossingSync) :
    Entered taggedHash (syncSchemas modern sync) (entered modern taggedHash sync) := by
  have hempty : Entered taggedHash [] ⟨.empty, false⟩ :=
    ⟨rfl, fun _ h => absurd h List.not_mem_nil, fun _ h => absurd h List.not_mem_nil⟩
  exact hempty.foldl (syncSchemas modern sync)

/-- What is taken of the content hash: it has a text, and schemas of one hash have one content,
in whatever order their members come. An object stands for its members in the order of their
keys, so that there is one value of each content. -/
structure HashesApart (taggedHash : FabricValue → JsString) (schemas : List FabricValue) :
    Prop where
  nonempty : ∀ schema, (taggedHash schema).units ≠ []
  apart : ∀ a ∈ schemas, ∀ b ∈ schemas, taggedHash a = taggedHash b → sameValue a b = true
  listed : ∀ schema ∈ schemas, keySorted schema = schema

theorem HashesApart.injective {schemas : List FabricValue} (h : HashesApart taggedHash schemas)
    {a b : FabricValue} (ha : a ∈ schemas) (hb : b ∈ schemas)
    (hhash : taggedHash a = taggedHash b) : a = b := by
  have hsame : keySorted a = keySorted b := of_decide_eq_true (h.apart a ha b hb hhash)
  rwa [h.listed a ha, h.listed b hb] at hsame

variable {schema value : FabricValue}

theorem get_entered {sync : CrossingSync}
    (hhash : HashesApart taggedHash (syncSchemas modern sync))
    (h : schema ∈ syncSchemas modern sync)
    (hcompressible : isCompressibleSchema schema = true) :
    (entered modern taggedHash sync).schemas.get (taggedHash schema) = some schema := by
  have hentered : Entered taggedHash (syncSchemas modern sync) (entered modern taggedHash sync) :=
    entered_entered sync
  obtain ⟨other, hother⟩ := Option.isSome_iff_exists.1 (hentered.complete schema h hcompressible)
  obtain ⟨hmem, -, hkey⟩ := hentered.sound _ (JsMap.mem_of_get hother)
  rw [hother, hhash.injective h hmem hkey]

/-- What an expanding callback answers, where it does not fail. -/
def expanded (taggedHash : FabricValue → JsString) (schemas : Option SchemaTable)
    (value : FabricValue) : FabricValue :=
  match expandSchemaRef taggedHash schemas value with
  | .ok (some schema) => schema
  | _ => value

theorem expandSchemaValue_eq (schemas : Option SchemaTable) (value : FabricValue) :
    expandSchemaValue taggedHash schemas value = (do
      let _ ← expandSchemaRef taggedHash schemas value
      pure ()
      pure (expanded taggedHash schemas value)) := by
  rw [expandSchemaValue, expanded]
  cases expandSchemaRef taggedHash schemas value with
  | error message => rfl
  | ok schema => cases schema <;> rfl

theorem expandValue_eq (schemas : Option SchemaTable) (value : FabricValue) :
    expandValue modern taggedHash schemas value = (do
      (schemasOf modern value).forM fun schema => do
        let _ ← expandSchemaRef taggedHash schemas schema
        pure ()
      pure (mapped modern (expanded taggedHash schemas) value)) :=
  mapLinkSchemas_eq (fun schema => by rw [expandSchemaValue_eq, bind_assoc]; rfl) value

theorem startsWith_append (pre rest : JsString) : (JsString.append pre rest).startsWith pre = true := by
  simp [JsString.startsWith, JsString.append]

theorem slice_append (pre rest : JsString) :
    (JsString.append pre rest).slice pre.units.length = rest := by
  simp [JsString.slice, JsString.append]

theorem reserved_of_startsWith {ref : JsString} (h : ref.startsWith SYNC_SCHEMA_REF_PREFIX = true) :
    isReservedSchemaRef ref = true := by
  rw [isReservedSchemaRef, h, Bool.true_or]

/-- What is not a reference is left alone. -/
theorem expandSchemaRef_unreserved {schemas : Option SchemaTable}
    (h : reservedRef? schema = none) : expandSchemaRef taggedHash schemas schema = .ok none := by
  cases schema with
  | string ref =>
    rw [expandSchemaRef, if_neg]
    intro hstarts
    simp [reservedRef?, reserved_of_startsWith hstarts] at h
  | _ => rfl

/-- A reference of the table is resolved to its schema. -/
theorem expandSchemaRef_refText {table : SchemaTable} (hnonempty : (taggedHash schema).units ≠ [])
    (hget : table.get (taggedHash schema) = some schema) :
    expandSchemaRef taggedHash (some table) (.string (refText (taggedHash schema))) =
      .ok (some schema) := by
  rw [expandSchemaRef, refText, if_pos (startsWith_append _ _), slice_append]
  simp [hnonempty, hget]

/-- No schema of the frame is a reserved reference, and none stands where a scan of its
documents refuses one. -/
structure Unreserved (modern : Bool) (sync : CrossingSync) : Prop where
  schemas : ∀ schema ∈ syncSchemas modern sync, reservedRef? schema = none
  docs : ∀ upsert ∈ sync.upserts, ∀ doc, upsert.doc = some doc →
    findSyncSchemaRef modern doc.toValue = none

theorem mem_syncSchemas_of_crossing {sync : CrossingSync} {crossings : List SyncCrossing}
    (hcrossings : sync.crossings = some crossings) {crossing : SyncCrossing}
    (hcrossing : crossing ∈ crossings) (h : crossing.schema = some schema) :
    schema ∈ syncSchemas modern sync := by
  refine List.mem_append_right _ (List.mem_flatMap.2 ⟨crossing, ?_, ?_⟩)
  · rw [hcrossings]
    exact hcrossing
  · rw [crossingSchemas, h]
    exact List.mem_singleton.2 rfl

section
variable {sync : CrossingSync} (hfree : Unreserved modern sync)
  (hhash : HashesApart taggedHash (syncSchemas modern sync))
include hfree hhash

theorem expandSchemaRef_tabled {schema : FabricValue} (h : schema ∈ syncSchemas modern sync) :
    expandSchemaRef taggedHash (some (entered modern taggedHash sync).schemas)
      (tabled taggedHash schema) = .ok (if isCompressibleSchema schema then some schema else none) := by
  rw [tabled]
  split
  · rename_i hcompressible
    exact expandSchemaRef_refText (hhash.nonempty schema) (get_entered hhash h hcompressible)
  · exact expandSchemaRef_unreserved (hfree.schemas schema h)

theorem expanded_tabled {schema : FabricValue} (h : schema ∈ syncSchemas modern sync) :
    expanded taggedHash (some (entered modern taggedHash sync).schemas) (tabled taggedHash schema) =
      schema := by
  rw [expanded, expandSchemaRef_tabled hfree hhash h, tabled]
  split <;> simp_all

theorem expandValue_mapped {value : FabricValue}
    (h : ∀ schema ∈ schemasOf modern value, schema ∈ syncSchemas modern sync) :
    expandValue modern taggedHash (some (entered modern taggedHash sync).schemas)
        (mapped modern (tabled taggedHash) value) =
      .ok (mapped modern (expanded taggedHash (some (entered modern taggedHash sync).schemas))
        (mapped modern (tabled taggedHash) value)) := by
  rw [expandValue_eq, schemasOf_mapped, List.forM_ok]
  · rfl
  · intro schema hschema
    obtain ⟨source, hsource, rfl⟩ := List.mem_map.1 hschema
    rw [expandSchemaRef_tabled hfree hhash (h source hsource)]
    rfl
theorem expandCrossing_tabled {crossings : List SyncCrossing}
    (hcrossings : sync.crossings = some crossings)
    {crossing : SyncCrossing} (hcrossing : crossing ∈ crossings) :
    expandCrossing taggedHash (some (entered modern taggedHash sync).schemas)
      (tabledCrossing taggedHash crossing) = .ok crossing := by
  obtain ⟨space, id, scope, path, schema⟩ := crossing
  cases schema with
  | none => rfl
  | some schema =>
    have hschema : schema ∈ syncSchemas modern sync :=
      mem_syncSchemas_of_crossing hcrossings hcrossing rfl
    simp only [expandCrossing, tabledCrossing, Option.map_some]
    rw [expandSchemaRef_tabled hfree hhash hschema, Except.ok_bind, tabled]
    by_cases hcompressible : isCompressibleSchema schema = true
    · rw [if_pos hcompressible]
      rfl
    · rw [if_neg hcompressible, if_neg hcompressible]
      rfl

omit hhash in
theorem expandCrossing_untabled {crossings : List SyncCrossing}
    (hcrossings : sync.crossings = some crossings) {crossing : SyncCrossing}
    (hcrossing : crossing ∈ crossings) : expandCrossing taggedHash none crossing = .ok crossing := by
  obtain ⟨space, id, scope, path, schema⟩ := crossing
  cases schema with
  | none => rfl
  | some schema =>
    have hschema : schema ∈ syncSchemas modern sync :=
      mem_syncSchemas_of_crossing hcrossings hcrossing rfl
    simp only [expandCrossing]
    rw [expandSchemaRef_unreserved (hfree.schemas schema hschema)]
    rfl
end

theorem tabled_ne_iff (schema : FabricValue) :
    tabled taggedHash schema ≠ schema ↔ isCompressibleSchema schema = true := by
  rw [tabled]
  split
  · rename_i hcompressible
    refine iff_of_true (fun heq => ?_) hcompressible
    rw [← heq] at hcompressible
    exact absurd hcompressible (by simp [isCompressibleSchema])
  · rename_i hcompressible
    exact iff_of_false (fun hne => hne rfl) hcompressible

theorem asDocument_toValue {fields : Members}
    (h : value = .record fields) : (asDocument value).toValue = value := by
  rw [h]
  rfl

theorem mem_syncSchemas_of_doc {sync : CrossingSync} {upsert : SessionSyncUpsert}
    {doc : EntityDocument} (hupsert : upsert ∈ sync.upserts) (hdoc : upsert.doc = some doc)
    (h : schema ∈ schemasOf modern doc.toValue) :
    schema ∈ syncSchemas modern sync :=
  List.mem_append_left _ (List.mem_flatMap.2 ⟨upsert, hupsert, by rwa [upsertSchemas, hdoc]⟩)

/-- The links of a document that compression changes are envelopes around a payload alone. -/
def KeepsLinks (modern : Bool) (doc : EntityDocument) : Prop :=
  RebuildsLinks modern (fun schema => isCompressibleSchema schema = true) doc.toValue

section
variable {sync : CrossingSync} (hfree : Unreserved modern sync)
  (hhash : HashesApart taggedHash (syncSchemas modern sync))
  (hkeys : ∀ upsert ∈ sync.upserts, ∀ doc, upsert.doc = some doc → WellKeyed modern doc.toValue)
include hfree hhash hkeys

theorem expandUpsert_tabled_iff {upsert : SessionSyncUpsert} (hupsert : upsert ∈ sync.upserts) :
    expandUpsert modern taggedHash (some (entered modern taggedHash sync).schemas)
        (tabledUpsert modern taggedHash upsert) = .ok upsert ↔
      ∀ doc, upsert.doc = some doc → KeepsLinks modern doc := by
  cases hdoc : upsert.doc with
  | none => simp [expandUpsert, tabledUpsert, hdoc]
  | some doc =>
    have hschemas : ∀ schema ∈ schemasOf modern doc.toValue, schema ∈ syncSchemas modern sync :=
      fun schema hschema => mem_syncSchemas_of_doc hupsert hdoc hschema
    obtain ⟨fields, hrecord⟩ : ∃ fields, mapped modern (tabled taggedHash) doc.toValue =
      .record fields := mapped_of_record doc.fields
    have hnoref := hfree.docs upsert hupsert doc hdoc
    have hback := expandValue_mapped hfree hhash hschemas
    rw [expandUpsert, tabledUpsert, hdoc]
    dsimp only
    rw [asDocument_toValue hrecord, hback]
    have hkeeps : KeepsLinks modern doc ↔ mapped modern
        (expanded taggedHash (some (entered modern taggedHash sync).schemas))
        (mapped modern (tabled taggedHash) doc.toValue) = doc.toValue := by
      have hchanges : ∀ schema, isCompressibleSchema schema = true ↔
          tabled taggedHash schema ≠ schema := fun schema => (tabled_ne_iff schema).symm
      simp only [KeepsLinks, hchanges]
      exact ⟨mapped_mapped (hkeys upsert hupsert doc hdoc) fun schema hschema =>
        expanded_tabled hfree hhash (hschemas schema hschema), rebuildsLinks_of_mapped_mapped⟩
    obtain ⟨fields', hrecord'⟩ : ∃ fields', mapped modern
        (expanded taggedHash (some (entered modern taggedHash sync).schemas))
        (mapped modern (tabled taggedHash) doc.toValue) = .record fields' :=
      hrecord ▸ mapped_of_record fields
    have hforall : (∀ doc', some doc = some doc' → KeepsLinks modern doc') ↔
        KeepsLinks modern doc := by simp
    rw [hforall, hkeeps, Except.ok_bind]
    constructor
    · intro h
      split at h
      · cases h
      · have hdoc' := (congrArg SessionSyncUpsert.doc (Except.ok.inj h)).trans hdoc
        rw [← asDocument_toValue hrecord']
        exact congrArg EntityDocument.toValue (Option.some.inj hdoc')
    · intro h
      rw [h, hnoref]
      obtain ⟨_, _, _, _, _, doc', _, _⟩ := upsert
      cases hdoc
      rfl

/-- The frame is restored if and only if its documents keep their links. -/
theorem restores_iff : expandSessionSyncSchemas modern taggedHash
      (compressSessionSyncSchemas modern taggedHash sync) = .ok sync ↔
    ∀ upsert ∈ sync.upserts, ∀ doc, upsert.doc = some doc → KeepsLinks modern doc := by
  have hentered : Entered taggedHash (syncSchemas modern sync) (entered modern taggedHash sync) :=
    entered_entered sync
  rw [compressSessionSyncSchemas_eq]
  cases hchanged : (entered modern taggedHash sync).changed with
  | false =>
    rw [hentered.changed, List.any_eq_false] at hchanged
    refine iff_of_true ?_ fun upsert hupsert doc hdoc node hnode payload hlink hschema => ?_
    · have hupserts : sync.upserts.forM (refuseUpsertRef modern taggedHash none) = .ok () := by
        refine List.forM_ok fun upsert hupsert => ?_
        rw [refuseUpsertRef]
        cases hdoc : upsert.doc with
        | none => rfl
        | some doc => simp [hfree.docs upsert hupsert doc hdoc]
      have hcrossings : sync.crossings.mapM (·.mapM (expandCrossing taggedHash none)) =
          .ok sync.crossings := by
        cases hsync : sync.crossings with
        | none => rfl
        | some crossings =>
          have hall : (crossings.map id).mapM (expandCrossing taggedHash none) = .ok crossings :=
            List.mapM_map_ok_iff.2 fun _ hcrossing => expandCrossing_untabled hfree hsync hcrossing
          rw [Option.mapM_some, ← List.map_id crossings, hall, List.map_id]
          rfl
      simp only [Bool.not_false, if_true, expandSessionSyncSchemas, Option.all_none, hupserts,
        hcrossings]
      rfl
    · obtain ⟨schema, hmem, hcompressible⟩ := hschema
      have hdocSchema := mem_schemasOf_of_nodes hnode hmem
      exact absurd hcompressible (hchanged schema (mem_syncSchemas_of_doc hupsert hdoc hdocSchema))
  | true =>
    rw [hentered.changed, List.any_eq_true] at hchanged
    obtain ⟨schema, hschema, hcompressible⟩ := hchanged
    have hnonempty : (entered modern taggedHash sync).schemas.entries.isEmpty = false := by
      obtain ⟨other, hother⟩ := JsMap.has_iff.1 (hentered.complete schema hschema hcompressible)
      rw [List.isEmpty_eq_false_iff]
      exact List.ne_nil_of_mem hother
    have hcrossings : (sync.crossings.map (·.map (tabledCrossing taggedHash))).mapM
        (·.mapM (expandCrossing taggedHash (some (entered modern taggedHash sync).schemas))) =
        .ok sync.crossings := by
      cases hsync : sync.crossings with
      | none => rfl
      | some crossings =>
        have hall : (crossings.map (tabledCrossing taggedHash)).mapM _ = Except.ok crossings :=
          List.mapM_map_ok_iff.2 fun _ hcrossing => expandCrossing_tabled hfree hhash hsync hcrossing
        rw [Option.map_some, Option.mapM_some, hall]
        rfl
    simp only [Bool.not_true, Bool.false_eq_true, if_false, expandSessionSyncSchemas,
      Option.all_some, hnonempty, hcrossings]
    have hupserts : (sync.upserts.map (tabledUpsert modern taggedHash)).mapM (expandUpsert modern
        taggedHash (some (entered modern taggedHash sync).schemas)) = .ok sync.upserts ↔
        ∀ upsert ∈ sync.upserts, ∀ doc, upsert.doc = some doc → KeepsLinks modern doc := by
      rw [List.mapM_map_ok_iff]
      exact forall₂_congr fun upsert hupsert => expandUpsert_tabled_iff hfree hhash hkeys hupsert
    rw [← hupserts, Except.bind_ok_iff]
    constructor
    · rintro ⟨upserts, hmap, h⟩
      rw [Except.ok_bind] at h
      have hsame := congrArg (fun sync : CrossingSync => sync.upserts) (Except.ok.inj h)
      exact hmap.trans (congrArg _ hsame)
    · intro hmap
      exact ⟨sync.upserts, hmap, rfl⟩

end

theorem upsertSchemas_tabled (upsert : SessionSyncUpsert) :
    upsertSchemas modern (tabledUpsert modern taggedHash upsert) =
      (upsertSchemas modern upsert).map (tabled taggedHash) := by
  obtain ⟨_, _, _, _, _, doc, _, _⟩ := upsert
  cases doc with
  | none => rfl
  | some doc =>
    obtain ⟨fields, hrecord⟩ : ∃ fields, mapped modern (tabled taggedHash) doc.toValue =
      .record fields := mapped_of_record doc.fields
    simp only [upsertSchemas, tabledUpsert]
    rw [asDocument_toValue hrecord, schemasOf_mapped]

/-- The schema positions of a compressed frame are those of the frame. -/
theorem syncSchemas_tabled (sync : CrossingSync) :
    syncSchemas modern { sync with
        upserts := sync.upserts.map (tabledUpsert modern taggedHash)
        crossings := sync.crossings.map (·.map (tabledCrossing taggedHash)) } =
      (syncSchemas modern sync).map (tabled taggedHash) := by
  have hcrossings : ((sync.crossings.map (·.map (tabledCrossing taggedHash))).getD []).flatMap
      crossingSchemas = ((sync.crossings.getD []).flatMap crossingSchemas).map (tabled taggedHash) := by
    have hcrossing : ∀ crossing, crossingSchemas (tabledCrossing taggedHash crossing) =
        (crossingSchemas crossing).map (tabled taggedHash) := fun _ => Option.toList_map
    cases sync.crossings with
    | none => rfl
    | some crossings => simp [List.flatMap_map, List.map_flatMap, hcrossing]
  rw [syncSchemas, syncSchemas, hcrossings, List.map_append, List.flatMap_map]
  congr 1
  rw [List.map_flatMap]
  exact List.flatMap_congr fun upsert _ => upsertSchemas_tabled upsert

/-- Each entry of a frame's table is referenced. -/
theorem referenced {sync : CrossingSync} {table : SchemaTable}
    (h : (compressSessionSyncSchemas modern taggedHash sync).schemaTable = some table)
    {entry : JsString × FabricValue} (hentry : entry ∈ table.entries) :
    .string (refText entry.1) ∈ syncSchemas modern
      (compressSessionSyncSchemas modern taggedHash sync).toCrossingSync := by
  have hentered : Entered taggedHash (syncSchemas modern sync) (entered modern taggedHash sync) :=
    entered_entered sync
  rw [compressSessionSyncSchemas_eq] at h ⊢
  by_cases hchanged : (entered modern taggedHash sync).changed = true
  · simp only [hchanged, Bool.not_true, Bool.false_eq_true, if_false, Option.some.injEq] at h ⊢
    subst h
    obtain ⟨hmem, hcompressible, hkey⟩ := hentered.sound entry hentry
    have htabled : FabricValue.string (refText entry.1) = tabled taggedHash entry.2 := by
      rw [tabled, if_pos hcompressible, hkey]
    rw [htabled, syncSchemas_tabled]
    exact List.mem_map_of_mem hmem
  · simp [hchanged] at h

theorem expandSchemaRef_none_or (schemas : Option SchemaTable) (schema : FabricValue) :
    expandSchemaRef taggedHash schemas schema = .ok none ∨
      ∃ ref, schema = .string ref ∧ ref.startsWith SYNC_SCHEMA_REF_PREFIX = true := by
  cases schema with
  | string ref =>
    by_cases hstarts : ref.startsWith SYNC_SCHEMA_REF_PREFIX = true
    · exact .inr ⟨ref, rfl, hstarts⟩
    · rw [expandSchemaRef, if_neg hstarts]
      exact .inl rfl
  | _ => exact .inl rfl

/-- A value the expansion does not leave as it is has a table reference for a schema. -/
theorem ref_of_expandValue_ne {schemas : Option SchemaTable} (hkeys : WellKeyed modern value)
    (h : expandValue modern taggedHash schemas value ≠ .ok value) :
    ∃ ref, .string ref ∈ schemasOf modern value ∧
      ref.startsWith SYNC_SCHEMA_REF_PREFIX = true := by
  by_contra hnone
  have hleft : ∀ schema ∈ schemasOf modern value,
      expandSchemaRef taggedHash schemas schema = .ok none := fun schema hschema =>
    (expandSchemaRef_none_or schemas schema).resolve_right fun ⟨ref, href, hstarts⟩ =>
      hnone ⟨ref, href ▸ hschema, hstarts⟩
  refine h ?_
  rw [expandValue_eq, List.forM_ok fun schema hschema => by rw [hleft schema hschema]; rfl,
    mapped_eq_self hkeys fun schema hschema => by rw [expanded, hleft schema hschema]]
  rfl

/-- Without a table, a table reference for a schema is refused. -/
theorem expandValue_untabled_ne {ref : JsString} (h : .string ref ∈ schemasOf modern value)
    (hstarts : ref.startsWith SYNC_SCHEMA_REF_PREFIX = true) :
    expandValue modern taggedHash none value ≠ .ok value := by
  rw [expandValue_eq]
  intro hok
  obtain ⟨hall, -⟩ := Except.check_ok_iff.1 hok
  have hthis := List.forM_ok_mem hall h
  rw [expandSchemaRef, if_pos hstarts] at hthis
  dsimp only at hthis
  split at hthis <;> cases hthis

end

/-- A frame with no reserved reference is restored by expansion if and only if its documents
keep their links, its table holds nothing that is not referenced, and a value that expansion
does not leave alone is reported by both scans, unless the only references in it are those
of links that stand directly under `$alias`, which one of the scans does not recognize. -/
theorem transparent_iff {modern : Bool} {taggedHash : FabricValue → JsString} {sync : CrossingSync}
    (hfree : Unreserved modern sync) (hhash : HashesApart taggedHash (syncSchemas modern sync))
    (hkeys : ∀ upsert ∈ sync.upserts, ∀ doc, upsert.doc = some doc → WellKeyed modern doc.toValue)
    {value : FabricValue} (hvalue : WellKeyed modern value) :
    (expandSessionSyncSchemas modern taggedHash (compressSessionSyncSchemas modern taggedHash sync) =
        .ok sync ∧
      (∀ table, (compressSessionSyncSchemas modern taggedHash sync).schemaTable = some table →
        ∀ entry ∈ table.entries, .string (refText entry.1) ∈ syncSchemas modern
          (compressSessionSyncSchemas modern taggedHash sync).toCrossingSync) ∧
      ∀ schemas, expandValue modern taggedHash schemas value ≠ .ok value →
        (findSyncSchemaRef modern value).isSome ∧ containsSyncSchemaRefString modern value = true) ↔
    (∀ upsert ∈ sync.upserts, ∀ doc, upsert.doc = some doc → KeepsLinks modern doc) ∧
      ∀ ref, .string ref ∈ aliasedSchemas modern value →
        ref.startsWith SYNC_SCHEMA_REF_PREFIX = true → ChecksRef modern value := by
  rw [restores_iff hfree hhash hkeys]
  constructor
  · rintro ⟨hlinks, -, hreports⟩
    refine ⟨hlinks, fun ref href hstarts => ?_⟩
    have hne : expandValue modern taggedHash none value ≠ .ok value :=
      expandValue_untabled_ne (mem_schemasOf_of_aliased href) hstarts
    exact findSyncSchemaRef_isSome.1 (hreports none hne).1
  · rintro ⟨hlinks, halias⟩
    refine ⟨hlinks, fun table htable entry hentry => referenced htable hentry, fun schemas hne => ?_⟩
    obtain ⟨ref, href, hstarts⟩ := ref_of_expandValue_ne hvalue hne
    have hreserved := reserved_of_startsWith hstarts
    constructor
    · rw [findSyncSchemaRef_isSome]
      exact (aliased_or_checksRef hreserved hvalue href).elim (halias ref · hstarts) id
    · exact containsSyncSchemaRefString_iff.2 (findsString_of_mem hreserved href)

def linkWith (beside : Members) (schema : FabricValue) : FabricValue :=
  .record [("/", .record ((LINK_V1_TAG, .record [("schema", schema)]) :: beside))]

def syncOf (value : FabricValue) : CrossingSync where
  fromSeq := 0
  toSeq := 1
  upserts := [⟨"", "of:d", none, none, 1, some ⟨[("value", value)]⟩, false, none⟩]
  removes := []
  crossings := none

/-- A link envelope with a member beside the payload. -/
def besideLink : FabricValue := linkWith [("x", .null)] (.bool true)

/-- A link with a table reference for its schema, directly under `$alias`. -/
def aliasedRef : FabricValue := .record [("$alias", linkWith [] (.string (refText "h")))]

theorem not_transparent :
    (findSyncSchemaRef false (EntityDocument.mk [("value", besideLink)]).toValue = none ∧
      syncSchemas false (syncOf besideLink) = [.bool true] ∧
      expandSessionSyncSchemas false (fun _ => "h")
        (compressSessionSyncSchemas false (fun _ => "h") (syncOf besideLink)) ≠
          .ok (syncOf besideLink)) ∧
    expandValue false (fun _ => "h") none aliasedRef ≠ .ok aliasedRef ∧
      findSyncSchemaRef false aliasedRef = none := by
  decide +kernel

/-- A hash for the example below, which tells `true` from all else. -/
def trueHash (schema : FabricValue) : JsString := if schema = .bool true then "true" else "other"

def linkedDocument : EntityDocument :=
  ⟨[("value", .array [some (linkWith [] (.bool true)),
    some (linkWith [] (.record [("type", .string "string")])), some (linkWith [] (.bool true))])]⟩

/-- A frame with links of which two have one schema, which a crossing has too. -/
def linkedSync : CrossingSync where
  fromSeq := 0
  toSeq := 1
  upserts := [⟨"", "of:d", none, none, 1, some linkedDocument, false, none⟩]
  removes := []
  crossings := some [⟨"did:key:z", "of:e", none, ["value"], some (.bool true)⟩]

/-- And a value that holds a table reference for a schema. -/
theorem transparent_linked :
    let value := linkWith [] (.string (refText "h"))
    expandSessionSyncSchemas false trueHash (compressSessionSyncSchemas false trueHash linkedSync) =
        .ok linkedSync ∧
      (∀ table, (compressSessionSyncSchemas false trueHash linkedSync).schemaTable = some table →
        ∀ entry ∈ table.entries, .string (refText entry.1) ∈ syncSchemas false
          (compressSessionSyncSchemas false trueHash linkedSync).toCrossingSync) ∧
      ∀ schemas, expandValue false trueHash schemas value ≠ .ok value →
        (findSyncSchemaRef false value).isSome ∧ containsSyncSchemaRefString false value = true := by
  have hfacts : (∀ schema ∈ syncSchemas false linkedSync,
        reservedRef? schema = none ∧ keySorted schema = schema ∧
          ∀ other ∈ syncSchemas false linkedSync, trueHash schema = trueHash other →
            sameValue schema other = true) ∧
      findSyncSchemaRef false linkedDocument.toValue = none ∧
      WellKeyed false linkedDocument.toValue ∧
      RebuildsLinks false (fun schema => isCompressibleSchema schema = true)
        linkedDocument.toValue ∧
      WellKeyed false (linkWith [] (.string (refText "h"))) ∧
      aliasedSchemas false (linkWith [] (.string (refText "h"))) = [] := by decide +kernel
  obtain ⟨hschemas, hfree, hkeyed, hlinks, hvalue, hnone⟩ := hfacts
  have hdocs : ∀ upsert ∈ linkedSync.upserts, ∀ doc, upsert.doc = some doc →
      doc = linkedDocument := by
    intro upsert hupsert doc hdoc
    obtain rfl := List.mem_singleton.1 hupsert
    exact (Option.some.inj hdoc).symm
  have hnonempty (schema : FabricValue) : (trueHash schema).units ≠ [] := by
    rw [trueHash]
    split <;> decide
  refine (transparent_iff ⟨fun schema h => (hschemas schema h).1, ?_⟩
    ⟨hnonempty, fun a ha b hb => (hschemas a ha).2.2 b hb, fun a ha => (hschemas a ha).2.1⟩ ?_
    hvalue).2 ⟨?_, ?_⟩
  · intro upsert hupsert doc hdoc
    rw [hdocs upsert hupsert doc hdoc]
    exact hfree
  · intro upsert hupsert doc hdoc
    rw [hdocs upsert hupsert doc hdoc]
    exact hkeyed
  · intro upsert hupsert doc hdoc
    rw [hdocs upsert hupsert doc hdoc]
    exact hlinks
  · intro ref href
    rw [hnone] at href
    cases href

end SchemaTable
