import CommonFabric.Checked
import CommonFabric.DocumentCache

/-!
# Programs that fail where they stand

A program over a state that may fail, where a failure undoes nothing: the state it leaves is
the one its statements have made so far. Forgetting that state gives a function that succeeds
or fails as a whole.
-/

/-- A program over a state: its answer or its failure, and the state it leaves. -/
def Transact (σ ε α : Type) : Type := σ → Except ε α × σ

namespace Transact

variable {σ ε α β γ : Type}

instance : Monad (Transact σ ε) where
  pure a := fun s => (.ok a, s)
  bind x f := fun s => match x s with
    | (.ok a, t) => f a t
    | (.error e, t) => (.error e, t)

/-- One statement: it makes the new state and answers, or fails and changes nothing. -/
def attempt (f : σ → Except ε (σ × α)) : Transact σ ε α := fun s =>
  match f s with
  | .ok (t, a) => (.ok a, t)
  | .error e => (.error e, s)

/-- A check or a computation that changes nothing. -/
def ask (f : σ → Except ε α) : Transact σ ε α := fun s => (f s, s)

/-- A statement that cannot fail. -/
def update (f : σ → σ) : Transact σ ε Unit := fun s => (.ok (), f s)

/-- One statement that answers nothing. -/
def write (f : σ → Except ε σ) : Transact σ ε Unit := attempt fun s => f s >>= fun t => .ok (t, ())

/-- What the program answers, with the state it leaves when it does. -/
def settled (x : Transact σ ε α) (s : σ) : Except ε (σ × α) :=
  match x s with
  | (.ok a, t) => .ok (t, a)
  | (.error e, _) => .error e

/-- The state it leaves, failed or not. -/
def left (x : Transact σ ε α) (s : σ) : σ := (x s).2

variable {x : Transact σ ε α} {f : α → Transact σ ε β} {s t : σ} {a : α}

theorem run_of_settled (h : x.settled s = .ok (t, a)) : x s = (.ok a, t) := by
  unfold settled at h
  cases hx : x s with
  | mk answer t' =>
    rw [hx] at h
    cases answer with
    | ok a' =>
      cases h
      rfl
    | error e => cases h

theorem run_of_failed {e : ε} (h : x.settled s = .error e) : x s = (.error e, x.left s) := by
  unfold settled at h
  rw [left]
  cases hx : x s with
  | mk answer t' =>
    rw [hx] at h
    cases answer with
    | ok a' => cases h
    | error e' =>
      cases h
      rfl

@[simp] theorem settled_pure (a : α) (s : σ) : (pure a : Transact σ ε α).settled s = .ok (s, a) :=
  rfl

@[simp] theorem settled_attempt (f : σ → Except ε (σ × α)) (s : σ) :
    (attempt f).settled s = f s := by
  unfold settled attempt
  cases f s <;> rfl

@[simp] theorem settled_ask (f : σ → Except ε α) (s : σ) :
    (ask f).settled s = f s >>= fun a => .ok (s, a) := by
  unfold settled ask
  cases f s <;> rfl

@[simp] theorem settled_write (f : σ → Except ε σ) (s : σ) :
    (write f).settled s = f s >>= fun t => .ok (t, ()) := settled_attempt _ s

@[simp] theorem settled_update (f : σ → σ) (s : σ) :
    (update f : Transact σ ε Unit).settled s = .ok (f s, ()) := rfl

theorem run_bind (x : Transact σ ε α) (f : α → Transact σ ε β) (s : σ) :
    (x >>= f) s = match x s with
      | (.ok a, t) => f a t
      | (.error e, t) => (.error e, t) := rfl

@[simp] theorem settled_bind (x : Transact σ ε α) (f : α → Transact σ ε β) (s : σ) :
    (x >>= f).settled s = x.settled s >>= fun p => (f p.2).settled p.1 := by
  unfold settled
  rw [run_bind]
  cases h : x s with
  | mk answer t => cases answer <;> rfl

/-- A loop forgets the state as its steps do, where `c` takes what the steps of a function
pass on apart into the state and the rest. -/
theorem settled_foldlM {ω : Type} (c : ω → σ × β) (g : ω → γ → Except ε ω)
    (step : β → γ → Transact σ ε β)
    (h : ∀ w x, (step (c w).2 x).settled (c w).1 = c <$> g w x) (xs : List γ) (w : ω) :
    (xs.foldlM step (c w).2).settled (c w).1 = c <$> xs.foldlM g w := by
  induction xs generalizing w with
  | nil => rfl
  | cons x xs ih =>
    rw [List.foldlM_cons, List.foldlM_cons, settled_bind, h, bind_map_left, map_bind]
    apply bind_congr
    exact ih

/-- What the program makes of a state, on success and on failure alike. -/
def Leaves (R : σ → σ → Prop) (x : Transact σ ε α) : Prop := ∀ s, R s (x.left s)

section Leaves

variable {R : σ → σ → Prop} (hrefl : ∀ s, R s s) (htrans : ∀ {s t u}, R s t → R t u → R s u)

include htrans in
theorem Leaves.bind (hx : Leaves R x) (hf : ∀ a, Leaves R (f a)) : Leaves R (x >>= f) := by
  intro s
  have hfirst := hx s
  rw [left] at hfirst ⊢
  rw [run_bind]
  cases h : x s with
  | mk answer t =>
    rw [h] at hfirst
    cases answer with
    | ok a => exact htrans hfirst (hf a t)
    | error e => exact hfirst

include hrefl in
theorem Leaves.attempt {f : σ → Except ε (σ × α)} (hf : ∀ s t a, f s = .ok (t, a) → R s t) :
    Leaves R (attempt f) := by
  intro s
  rw [left, Transact.attempt]
  cases h : f s with
  | ok p => exact hf s p.1 p.2 h
  | error e => exact hrefl s

include hrefl in
theorem Leaves.ask (f : σ → Except ε α) : Leaves R (ask f) := fun s => hrefl s

include hrefl in
theorem Leaves.pure (a : α) : Leaves R (Pure.pure a : Transact σ ε α) := fun s => hrefl s

theorem Leaves.update {f : σ → σ} (hf : ∀ s, R s (f s)) :
    Leaves R (update f : Transact σ ε Unit) := hf

include hrefl htrans in
theorem Leaves.foldlM {f : β → γ → Transact σ ε β} {xs : List γ} (hf : ∀ b, ∀ x ∈ xs, Leaves R (f b x))
    (b : β) : Leaves R (xs.foldlM f b) := by
  induction xs generalizing b with
  | nil => exact .pure hrefl b
  | cons x xs ih =>
    rw [List.foldlM_cons]
    exact .bind htrans (hf b x List.mem_cons_self)
      fun b' => ih (fun b y hy => hf b y (List.mem_cons_of_mem _ hy)) b'

end Leaves

end Transact

namespace Statements

open Store Transact

def writeMaterialized (h : Hashing) (ctx : WriteContext) (op : ApplyOpOperation)
    (materialized : FabricValue) (operations : List FabricValue) (prior next : FieldAnchors) :
    Transact Store EngineError (List AppliedRevision) := do
  let written ← attempt fun s => OpField.writeValue s ctx op materialized operations
  if OpField.sameAnchors prior next then pure written
  else do
    let revision ← attempt fun s => s.writeOperation ctx (OpField.anchorsWrite h op next)
    pure (written ++ [{ revision with derived := true }])

def applyFreshOperation (e : Engine) (ctx : WriteContext) (doc : DocInstance)
    (op : ApplyOpOperation) (prior : Option OpFieldRow) :
    Transact Store EngineError OpField.AppliedOperation := do
  let key := OpField.fieldKey doc op.path
  let document ← ask fun s => s.documentAt doc none
  let current ← ask fun _ => OpField.valueAtOperationPath e document op.path
  -- A new epoch's checkpoint is written before the codec has seen the payload.
  let field ← attempt fun s => OpField.enterEpoch e s ctx.seq key op prior current
  let codec ← ask fun _ => OpField.requireCodec e op.codec
  let integrated ← ask fun _ => OpField.integrate e codec op current field.intervening
  let operations := integrated.2
  let priorAnchors ← ask fun s => OpField.readFieldAnchors e s doc op.id op.path op.scope
  let anchors ← ask fun _ => OpField.nextAnchors codec op.codec priorAnchors operations
  let nextVersion := field.version + operations.length
  update fun s => OpField.upsertOperationFieldHead s
    ⟨key, field.epoch, op.codec, nextVersion, field.baselineHash, integrated.1, true, ctx.seq⟩
  write fun s => OpField.insertIntegrated s (operations.zipIdx.map fun (payload, index) =>
    ⟨key, field.epoch, field.version + index + 1,
      OpField.integratedOperationId e.hashing doc op.path field.epoch (field.version + index + 1),
      op.submissionId, payload, ctx.seq⟩)
  write fun s =>
    OpField.maybeCheckpoint e s ctx.seq key field.epoch field.version nextVersion integrated.1
  let submission : OpSubmissionRow := ⟨key, field.epoch, op.submissionId, op.codec,
    OpField.baseVersion op.base, op.payload, field.version, nextVersion, operations, ctx.seq,
    ctx.opIndex⟩
  write fun s => OpField.insertSubmission s submission
  let revisions ← writeMaterialized e.hashing ctx op integrated.1 operations priorAnchors anchors
  pure ⟨OpField.storedOperationResolution e.hashing ctx.opIndex doc (normalizeScope op.scope)
    op.path submission false, revisions⟩

def applyOperation (e : Engine) (ctx : WriteContext) (op : ApplyOpOperation) :
    Transact Store EngineError OpField.AppliedOperation := do
  ask fun _ => OpField.assertDefaultOperationBranch ctx.branch
  ask fun _ => OpField.validateApplyOperation e op
  ask fun _ => require (!isStreamEntriesDocId op.id)
    (.protocol "apply-op cannot mutate a stream sidecar document")
  ask fun _ => require (!isOperationAnchorsDocId op.id)
    (.protocol "apply-op cannot mutate an anchors document")
  let scopeKey ← ask fun _ => writeScopeKey op.scope ctx.identity ctx.scopeKeyOverride
  let doc : DocInstance := ⟨ctx.branch, op.id, scopeKey⟩
  let key := OpField.fieldKey doc op.path
  let fields ← ask fun s => .ok s
  let prior := OpField.selectOperationField fields key
  let submissionEpoch := match prior with
    | some field => if field.active then field.epoch else field.epoch + 1
    | none => 1
  match fields.opFields.submissions.find? fun r =>
      r.key = key && r.epoch = submissionEpoch && r.submissionId = op.submissionId with
  | some row => do
    ask fun _ => require (OpField.sameSubmission op prior row)
      (.opSubmissionMismatch (.append "operation submission replay mismatch: " op.submissionId))
    pure ⟨OpField.storedOperationResolution e.hashing ctx.opIndex doc (normalizeScope op.scope)
      op.path row true, []⟩
  | none => applyFreshOperation e ctx doc op prior

/-- What the operations so far have applied. -/
structure Written where
  revisions : List AppliedRevision
  operationResolutions : List ApplyOpResolution

def Written.on (w : Written) (s : Store) : Commit.WriteState :=
  ⟨s, w.revisions, w.operationResolutions⟩

/-- The store, and what was applied, of a state of writing. -/
def apart (st : Commit.WriteState) : Store × Written :=
  (st.store, ⟨st.revisions, st.operationResolutions⟩)

section

variable (e : Engine) (o : ApplyCommitOptions) (a : Commit.Admission) (seq : Nat)

def writeDocument (opIndex : Nat) (written : Written) (w : DocumentWrite) :
    Transact Store EngineError Written := do
  let ctx := Commit.writeContext o seq opIndex
  write fun s => Commit.guardFields e s ctx w
  if a.reads.elidedOpIndexes.contains opIndex then pure written
  else do
    let stamps := a.plan.filter (·.opIndex = opIndex)
    let effective ← ask fun s => Commit.effectiveWrite s o seq opIndex stamps w
    let revision ← attempt fun s => s.writeOperation ctx effective
    ask fun s => OpField.assertAnchorsWrite s opIndex revision
    pure { written with revisions := written.revisions ++ [revision] }

def writeApplyOp (opIndex : Nat) (written : Written) (op : ApplyOpOperation) :
    Transact Store EngineError Written := do
  let ctx := Commit.writeContext o seq opIndex
  let scopeKey ← ask fun _ => writeScopeKey op.scope ctx.identity ctx.scopeKeyOverride
  let stated ← ask fun s => OpField.withStatedBase e s ⟨o.branch, op.id, scopeKey⟩ op
  let applied ← applyOperation e ctx stated
  pure ⟨written.revisions ++ applied.revisions,
    written.operationResolutions ++ [applied.resolution]⟩

def writeStep (written : Written) (step : Operation × Nat) :
    Transact Store EngineError Written :=
  let (operation, opIndex) := step
  match operation with
  | .sqlite op => do
    ask fun s => e.checks.applySqliteCommitWrite s op
    pure written
  | .applyOp op => writeApplyOp e o seq opIndex written op
  | .releaseOpField op => do
    write fun s => OpField.releaseOperationField s (Commit.writeContext o seq opIndex) op
    pure written
  | .set id scope value => writeDocument e o a seq opIndex written ⟨id, scope, .set value⟩
  | .patch id scope patches => writeDocument e o a seq opIndex written ⟨id, scope, .patch patches⟩
  | .delete id scope => writeDocument e o a seq opIndex written ⟨id, scope, .delete⟩

end

/-- Each watermark is a statement of its own. -/
def maintainWatermarks (o : ApplyCommitOptions) (seq : Nat) (revisions : List AppliedRevision) :
    Transact Store EngineError (List AppliedRevision) :=
  if o.commitClass = .derived then do
    let maintained ← (Streams.touchedSidecars revisions).foldlM
      (fun state sidecar => attempt fun s =>
        Streams.maintainWatermark ⟨o.branch, seq, o.sessionId⟩ (s, state) sidecar)
      (Streams.nextSyntheticOpIndex revisions, [])
    pure (revisions ++ maintained.2)
  else pure revisions

def materializeSnapshots (e : Engine) (revisions : List AppliedRevision) :
    Transact Store EngineError Unit :=
  if e.snapshotInterval = 0 then pure ()
  else (Commit.revisedDocs revisions).foldlM
    (fun _ doc => write fun s => Commit.maybeMaterializeSnapshot e s doc) ()

/-- What follows the row of a commit. -/
def writeOperations (e : Engine) (o : ApplyCommitOptions) (a : Commit.Admission) (seq : Nat) :
    Transact Store EngineError AppliedCommit := do
  let resolved := a.reads.resolvedPendingReads
  let written ← o.commit.operations.zipIdx.foldlM (writeStep e o a seq) ⟨[], []⟩
  update fun s => Commit.recordResolutions s seq resolved written.operationResolutions
  ask fun s => e.checks.validateStoredSyncSchemaRefs s o.branch written.revisions o.commit
  let revisions ← maintainWatermarks o seq written.revisions
  update fun s => s.updateBranchHead o.branch seq
  materializeSnapshots e revisions
  pure ⟨seq, o.branch, revisions, written.operationResolutions, a.reads.elidedOpIndexes, false⟩

def writeCommit (e : Engine) (o : ApplyCommitOptions) (sessionKey : JsString)
    (a : Commit.Admission) : Transact Store EngineError AppliedCommit := do
  let seq ← ask fun s => .ok s.nextSeq
  write fun s => s.insertCommit
    (Commit.commitRow o sessionKey seq a.reads.resolvedPendingReads)
  writeOperations e o a seq

def applyCommitTransaction (e : Engine) (o : ApplyCommitOptions) :
    Transact Store EngineError AppliedCommit := do
  ask fun _ => require (o.commitClass ≠ .derived || e.serverExecution)
    (.protocol (.concat ["derived-class commits are unclaimable while ",
      "EXPERIMENTAL_SERVER_EXECUTION is off (protocol.md §1)"]))
  let sessionKey ← ask fun _ => resolveCommitSessionKey o.sessionId o.principal
  let existing ← ask fun s => .ok (s.selectExistingCommit sessionKey o.commit.localSeq)
  match existing with
  | some existing => ask fun s => Commit.replayCommit s o existing
  | none => do
    let a ← ask fun s => Commit.admitCommit e s o sessionKey
    writeCommit e o sessionKey a

variable {e : Engine} {o : ApplyCommitOptions} {a : Commit.Admission} {seq : Nat} {s : Store}
  {ctx : WriteContext}

variable {op : ApplyOpOperation} {written : Written} {revisions : List AppliedRevision}

theorem settled_writeMaterialized {h : Hashing}
    {materialized : FabricValue} {operations : List FabricValue} {prior next : FieldAnchors} :
    (writeMaterialized h ctx op materialized operations prior next).settled s =
      OpField.writeMaterialized h s ctx op materialized operations prior next := by
  rw [writeMaterialized, OpField.writeMaterialized, settled_bind, settled_attempt]
  apply bind_congr
  intro written
  cases hsame : OpField.sameAnchors prior next with
  | true => rfl
  | false =>
    simp only [Bool.false_eq_true, if_false, settled_bind, settled_attempt]
    rfl

theorem settled_applyFreshOperation {doc : DocInstance} {prior : Option OpFieldRow} :
    (applyFreshOperation e ctx doc op prior).settled s =
      OpField.applyFreshOperation e s ctx doc op prior := by
  simp only [applyFreshOperation, OpField.applyFreshOperation, settled_bind, settled_ask,
    settled_attempt, settled_update, settled_write, bind_assoc, Except.ok_bind,
    settled_writeMaterialized, settled_pure]

theorem settled_applyOperation :
    (applyOperation e ctx op).settled s = OpField.applyOperation e s ctx op := by
  simp only [applyOperation, OpField.applyOperation, settled_bind, settled_ask, bind_assoc,
    Except.ok_bind]
  iterate 4
    apply bind_congr
    intro _
  apply bind_congr
  intro scopeKey
  generalize hprior : OpField.selectOperationField s
    (OpField.fieldKey ⟨ctx.branch, op.id, scopeKey⟩ op.path) = prior
  cases prior with
  | none =>
    dsimp only
    generalize List.find? _ s.opFields.submissions = row
    cases row with
    | some row => simp only [settled_bind, settled_ask, bind_assoc, Except.ok_bind, settled_pure]
    | none => exact settled_applyFreshOperation
  | some field =>
    dsimp only
    generalize List.find? _ s.opFields.submissions = row
    cases row with
    | some row => simp only [settled_bind, settled_ask, bind_assoc, Except.ok_bind, settled_pure]
    | none => exact settled_applyFreshOperation

theorem settled_writeDocument {opIndex : Nat} {w : DocumentWrite} :
    (writeDocument e o a seq opIndex written w).settled s =
      apart <$> Commit.writeDocument e o a seq opIndex (written.on s) w := by
  simp only [writeDocument, Commit.writeDocument, settled_bind, settled_write, bind_assoc,
    Except.ok_bind, map_bind]
  apply bind_congr
  intro s₁
  cases a.reads.elidedOpIndexes.contains opIndex with
  | true => rfl
  | false =>
    simp only [Bool.false_eq_true, if_false, settled_bind, settled_ask, settled_attempt, bind_assoc,
      Except.ok_bind, settled_pure, map_bind]
    rfl

theorem settled_writeApplyOp {opIndex : Nat} :
    (writeApplyOp e o seq opIndex written op).settled s =
      apart <$> Commit.writeApplyOp e o seq opIndex (written.on s) op := by
  simp only [writeApplyOp, Commit.writeApplyOp, settled_bind, settled_ask, bind_assoc,
    Except.ok_bind, settled_applyOperation, settled_pure, map_bind]
  rfl

theorem settled_writeStep {step : Operation × Nat} :
    (writeStep e o a seq written step).settled s =
      apart <$> Commit.writeStep e o a seq (written.on s) step := by
  obtain ⟨operation, opIndex⟩ := step
  cases operation with
  | set id scope value => exact settled_writeDocument
  | patch id scope patches => exact settled_writeDocument
  | delete id scope => exact settled_writeDocument
  | applyOp op => exact settled_writeApplyOp
  | releaseOpField op =>
    simp only [writeStep, Commit.writeStep, settled_bind, settled_write, bind_assoc, Except.ok_bind,
      settled_pure, map_bind]
    rfl
  | sqlite op =>
    simp only [writeStep, Commit.writeStep, settled_bind, settled_ask, bind_assoc, Except.ok_bind,
      settled_pure, map_bind]
    rfl

theorem settled_maintainWatermarks :
    (maintainWatermarks o seq revisions).settled s =
      Commit.maintainWatermarks s o seq revisions := by
  unfold maintainWatermarks Commit.maintainWatermarks
  split
  · have hloop := settled_foldlM (fun state : Store × Nat × List AppliedRevision => state)
      (Streams.maintainWatermark ⟨o.branch, seq, o.sessionId⟩)
      (fun state sidecar => attempt fun s =>
        Streams.maintainWatermark ⟨o.branch, seq, o.sessionId⟩ (s, state) sidecar)
      (fun state sidecar => by rw [settled_attempt, id_map'])
      (Streams.touchedSidecars revisions) (s, Streams.nextSyntheticOpIndex revisions, [])
    rw [settled_bind, hloop, id_map', Streams.maintainStreamEventWatermarks]
    rfl
  · rfl

theorem settled_materializeSnapshots :
    (materializeSnapshots e revisions).settled s =
      (·, ()) <$> Commit.materializeSnapshots e s revisions := by
  unfold materializeSnapshots Commit.materializeSnapshots
  split
  · rfl
  · exact settled_foldlM (fun s : Store => (s, ())) (Commit.maybeMaterializeSnapshot e)
      (fun _ doc => write fun s => Commit.maybeMaterializeSnapshot e s doc)
      (fun s doc => settled_write _ s) (Commit.revisedDocs revisions) s

theorem settled_writeCommit {sessionKey : JsString} :
    (writeCommit e o sessionKey a).settled s = Commit.writeCommit e s o sessionKey a := by
  have hsteps (seq : Nat) (s : Store) := settled_foldlM apart
    (Commit.writeStep e o a seq) (writeStep e o a seq) (fun st step => settled_writeStep) o.commit.operations.zipIdx ⟨s, [], []⟩
  simp only [writeCommit, writeOperations, Commit.writeCommit, settled_bind, settled_ask,
    settled_write, settled_update, bind_assoc, Except.ok_bind, settled_maintainWatermarks,
    settled_materializeSnapshots, settled_pure]
  apply bind_congr
  intro s₁
  have hloop := hsteps s.nextSeq s₁
  simp only [apart] at hloop
  rw [hloop]
  simp only [bind_map_left]
  rfl

/-- The transaction forgets what a failure leaves. -/
theorem settled_applyCommitTransaction :
    (applyCommitTransaction e o).settled s = Commit.applyCommitTransaction e s o := by
  simp only [applyCommitTransaction, Commit.applyCommitTransaction, settled_bind, settled_ask,
    bind_assoc, Except.ok_bind]
  apply bind_congr
  intro _
  apply bind_congr
  intro sessionKey
  cases s.selectExistingCommit sessionKey o.commit.localSeq with
  | some existing =>
    simp only [settled_ask, map_eq_pure_bind]
    rfl
  | none => simp only [settled_bind, settled_ask, bind_assoc, Except.ok_bind, settled_writeCommit]

/-- The commits keep their numbers. -/
def SameSeqs (s t : Store) : Prop := t.commits.map (·.seq) = s.commits.map (·.seq)

theorem SameSeqs.refl (s : Store) : SameSeqs s s := rfl

theorem SameSeqs.trans {s t u : Store} (h : SameSeqs s t) (h' : SameSeqs t u) : SameSeqs s u :=
  Eq.trans h' h

theorem SameSeqs.of_commits {s t : Store} (h : t.commits = s.commits) : SameSeqs s t := by
  rw [SameSeqs, h]

theorem SameSeqs.nextSeq {s t : Store} (h : SameSeqs s t) : t.nextSeq = s.nextSeq := by
  rw [Store.nextSeq, Store.nextSeq, serverSeq, serverSeq, h]

theorem SameSeqs.of_wrote {s t : Store} {branch : BranchName} {rows : List RevisionRow}
    (h : Wrote branch seq s rows t) : SameSeqs s t := .of_commits h.commits

theorem SameSeqs.of_fields {s t : Store} (n : Nat) (h : Wrote DEFAULT_BRANCH n s [] t) :
    SameSeqs s t := .of_wrote h

/-- A program that leaves the numbers of the commits as they are, failed or not. -/
abbrev KeepsSeqs {α : Type} (x : Transact Store EngineError α) : Prop := Leaves SameSeqs x

section

variable {α β : Type} {x : Transact Store EngineError α}

theorem KeepsSeqs.bind {f : α → Transact Store EngineError β} (hx : KeepsSeqs x)
    (hf : ∀ a, KeepsSeqs (f a)) : KeepsSeqs (x >>= f) := Leaves.bind SameSeqs.trans hx hf

theorem KeepsSeqs.ask (f : Store → Except EngineError α) : KeepsSeqs (Transact.ask f) :=
  Leaves.ask SameSeqs.refl f

theorem KeepsSeqs.pure (a : α) : KeepsSeqs (Pure.pure a) := Leaves.pure SameSeqs.refl a

theorem KeepsSeqs.attempt {f : Store → Except EngineError (Store × α)}
    (hf : ∀ s t a, f s = .ok (t, a) → SameSeqs s t) : KeepsSeqs (Transact.attempt f) :=
  Leaves.attempt SameSeqs.refl hf

theorem KeepsSeqs.write {f : Store → Except EngineError Store}
    (hf : ∀ s t, f s = .ok t → SameSeqs s t) : KeepsSeqs (Transact.write f) := by
  apply KeepsSeqs.attempt
  intro s t a h
  obtain ⟨t', ht, h⟩ := Except.bind_ok_iff.1 h
  cases h
  exact hf s t ht

theorem KeepsSeqs.foldlM {γ : Type} {f : β → γ → Transact Store EngineError β} {xs : List γ}
    (hf : ∀ b, ∀ x ∈ xs, KeepsSeqs (f b x)) (b : β) : KeepsSeqs (xs.foldlM f b) :=
  Leaves.foldlM SameSeqs.refl SameSeqs.trans hf b

end

theorem keepsSeqs_writeOperation (ctx : WriteContext) (w : DocumentWrite) :
    KeepsSeqs (attempt fun s => s.writeOperation ctx w) :=
  .attempt fun _ _ _ h => .of_wrote (writeOperation_wrote h).1

theorem keepsSeqs_writeMaterialized {h : Hashing}
    {materialized : FabricValue} {operations : List FabricValue} {prior next : FieldAnchors} :
    KeepsSeqs (writeMaterialized h ctx op materialized operations prior next) := by
  apply KeepsSeqs.bind
  · exact .attempt fun _ _ _ h => .of_wrote (OpField.writeValue_wrote h).1
  · intro written
    split
    · exact .pure _
    · exact .bind (keepsSeqs_writeOperation ctx _) fun _ => .pure _

theorem keepsSeqs_applyFreshOperation {doc : DocInstance}
    {prior : Option OpFieldRow} : KeepsSeqs (applyFreshOperation e ctx doc op prior) := by
  refine .bind (.ask _) fun document => .bind (.ask _) fun current => .bind ?_ fun field =>
    .bind (.ask _) fun codec => .bind (.ask _) fun integrated => .bind (.ask _) fun prior =>
    .bind (.ask _) fun anchors => .bind ?_ fun _ => .bind ?_ fun _ => .bind ?_ fun _ =>
    .bind ?_ fun _ => .bind keepsSeqs_writeMaterialized fun _ => .pure _
  · exact .attempt fun _ _ _ h => .of_fields ctx.seq (OpField.enterEpoch_wrote h)
  · exact Leaves.update fun s => .of_commits rfl
  · exact .write fun _ _ h => .of_fields ctx.seq (OpField.insertIntegrated_wrote h)
  · exact .write fun _ _ h => .of_fields ctx.seq (OpField.maybeCheckpoint_wrote h)
  · exact .write fun _ _ h => .of_fields ctx.seq (OpField.insertSubmission_wrote h)

theorem keepsSeqs_applyOperation :
    KeepsSeqs (applyOperation e ctx op) := by
  refine .bind (.ask _) fun _ => .bind (.ask _) fun _ => .bind (.ask _) fun _ =>
    .bind (.ask _) fun _ => .bind (.ask _) fun scopeKey => .bind (.ask _) fun fields => ?_
  dsimp only
  split
  · exact .bind (.ask _) fun _ => .pure _
  · exact keepsSeqs_applyFreshOperation

theorem keepsSeqs_writeDocument {opIndex : Nat} {w : DocumentWrite} :
    KeepsSeqs (writeDocument e o a seq opIndex written w) := by
  apply KeepsSeqs.bind
  · exact .write fun _ _ h => .of_fields seq (Commit.guardFields_wrote h)
  · intro _
    split
    · exact .pure _
    · exact .bind (.ask _) fun _ => .bind (keepsSeqs_writeOperation _ _) fun _ =>
        .bind (.ask _) fun _ => .pure _

theorem keepsSeqs_writeStep {step : Operation × Nat} :
    KeepsSeqs (writeStep e o a seq written step) := by
  obtain ⟨operation, opIndex⟩ := step
  cases operation with
  | set id scope value => exact keepsSeqs_writeDocument
  | patch id scope patches => exact keepsSeqs_writeDocument
  | delete id scope => exact keepsSeqs_writeDocument
  | applyOp op =>
    exact .bind (.ask _) fun _ => .bind (.ask _) fun _ =>
      .bind keepsSeqs_applyOperation fun _ => .pure _
  | releaseOpField op =>
    exact .bind (.write fun _ _ h => .of_fields seq (OpField.releaseOperationField_wrote h))
      fun _ => .pure _
  | sqlite op => exact .bind (.ask _) fun _ => .pure _

theorem keepsSeqs_maintainWatermarks :
    KeepsSeqs (maintainWatermarks o seq revisions) := by
  unfold maintainWatermarks
  split
  · apply KeepsSeqs.bind
    · apply KeepsSeqs.foldlM
      intro state sidecar _
      apply KeepsSeqs.attempt
      intro s t state' h
      obtain ⟨frontier?, _, h⟩ := Except.bind_ok_iff.1 h
      cases frontier? with
      | none =>
        cases h
        exact .refl s
      | some frontier =>
        obtain ⟨⟨t', applied⟩, hwrite, h⟩ := Except.bind_ok_iff.1 h
        cases h
        exact .of_wrote (writeOperation_wrote hwrite).1
    · exact fun _ => .pure _
  · exact .pure _

theorem maybeMaterializeSnapshot_commits {t : Store} {doc : DocInstance}
    (h : Commit.maybeMaterializeSnapshot e s doc = .ok t) : t.commits = s.commits := by
  obtain ⟨current?, _, h⟩ := Except.bind_ok_iff.1 h
  cases current? with
  | none =>
    cases h
    rfl
  | some current =>
    dsimp only at h
    split at h
    · cases h
      rfl
    · split at h
      · cases h
        rfl
      · split at h
        · cases h
          rfl
        · cases h
          rw [Commit.compactSnapshots]
          split <;> rfl

theorem keepsSeqs_materializeSnapshots :
    KeepsSeqs (materializeSnapshots e revisions) := by
  unfold materializeSnapshots
  split
  · exact .pure _
  · apply KeepsSeqs.foldlM
    intro _ doc _
    exact .write fun _ _ h => .of_commits (maybeMaterializeSnapshot_commits h)

theorem keepsSeqs_writeOperations : KeepsSeqs (writeOperations e o a seq) := by
  refine .bind (.foldlM (fun _ _ _ => keepsSeqs_writeStep) _) fun written => .bind ?_ fun _ =>
    .bind (.ask _) fun _ => .bind keepsSeqs_maintainWatermarks fun revisions => .bind ?_ fun _ =>
    .bind keepsSeqs_materializeSnapshots fun _ => .pure _
  · apply Leaves.update
    intro s
    rw [Commit.recordResolutions]
    split
    · exact .refl s
    · rw [SameSeqs, updateCommitResolution, List.map_map]
      apply List.map_congr_left
      intro c _
      dsimp only [Function.comp_apply]
      split <;> rfl
  · exact Leaves.update fun s => .of_commits rfl

/-- A commit whose row is written takes the next number, also when it fails after that. -/
theorem left_writeCommit {sessionKey : JsString}
    (hnone : s.selectExistingCommit sessionKey o.commit.localSeq = none) :
    s.nextSeq < ((writeCommit e o sessionKey a).left s).nextSeq := by
  have hfree : s.selectCommit s.nextSeq = none := by
    rw [selectCommit, List.find?_eq_none]
    intro c hc
    have hlt := lt_nextSeq hc
    simp only [decide_eq_true_eq]
    omega
  let row := Commit.commitRow o sessionKey s.nextSeq a.reads.resolvedPendingReads
  have hinsert : s.insertCommit row = .ok { s with commits := s.commits ++ [row] } := by
    have hpresent : s.selectExistingCommit row.sessionId row.localSeq = none := hnone
    have habsent : s.selectCommit row.seq = none := hfree
    rw [insertCommit, habsent, hpresent]
    rfl
  have hkeeps : KeepsSeqs (writeOperations e o a s.nextSeq) := keepsSeqs_writeOperations
  have hkept := hkeeps { s with commits := s.commits ++ [row] }
  have hrun : writeCommit e o sessionKey a s =
      writeOperations e o a s.nextSeq { s with commits := s.commits ++ [row] } := by
    rw [writeCommit, run_bind]
    dsimp only [Transact.ask]
    rw [run_bind, Transact.write, Transact.attempt, hinsert]
    rfl
  rw [left, hrun]
  rw [left] at hkept
  rw [SameSeqs.nextSeq hkept]
  have hmem : row ∈ ({ s with commits := s.commits ++ [row] } : Store).commits :=
    List.mem_append_right _ (List.mem_singleton_self row)
  exact lt_nextSeq hmem

end Statements
