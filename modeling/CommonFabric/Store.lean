import Mathlib.Data.List.MinMax
import Mathlib.Data.List.Pairwise
import Mathlib.Data.List.Sort
import Mathlib.Data.Prod.Lex
import CommonFabric.Checked
import CommonFabric.ClientCommit

/-!
A log replayed over a state. An entry either resets the state or changes it, and
a change may fail; a failure lasts until the next reset. Nothing here depends on
what the states and the changes are.
-/

inductive LogEntry (σ δ : Type) where
  | reset (s : σ)
  | change (d : δ)

namespace ReplayLog

variable {ε σ δ : Type} (apply : σ → δ → Except ε σ)

def step (state : Except ε σ) : LogEntry σ δ → Except ε σ
  | .reset s => .ok s
  | .change d => state >>= fun s => apply s d

def replay (state : Except ε σ) (log : List (LogEntry σ δ)) : Except ε σ :=
  log.foldl (step apply) state

@[simp] theorem replay_nil (state : Except ε σ) : replay apply state [] = state := rfl

theorem replay_cons (state : Except ε σ) (e : LogEntry σ δ) (log : List (LogEntry σ δ)) :
    replay apply state (e :: log) = replay apply (step apply state e) log := rfl

theorem replay_append (state : Except ε σ) (log log' : List (LogEntry σ δ)) :
    replay apply state (log ++ log') = replay apply (replay apply state log) log' :=
  List.foldl_append

/-- A log of changes alone, replayed from a state, applies them one after another. -/
theorem replay_changes (ds : List δ) :
    ∀ s : σ, replay apply (.ok s) (ds.map .change) = ds.foldlM apply s := by
  induction ds with
  | nil => intro s; rfl
  | cons d ds ih =>
    intro s
    rw [List.map_cons, replay_cons, List.foldlM_cons]
    cases h : apply s d with
    | ok s' => simp only [step, Except.ok_bind, h]; exact ih s'
    | error e =>
      simp only [step, Except.ok_bind, h, Except.error_bind]
      clear ih h
      induction ds with
      | nil => rfl
      | cons d' ds ih => rw [List.map_cons, replay_cons]; exact ih

end ReplayLog

section Runs

variable {ε α β γ : Type} {f : α → β → Except ε α}

/-- An invariant that every step keeps holds after a run that succeeds. -/
theorem List.foldlM_invariant (P : α → Prop) {xs : List β}
    (hstep : ∀ x ∈ xs, ∀ a b, P a → f a x = .ok b → P b) :
    ∀ {a b : α}, P a → xs.foldlM f a = .ok b → P b := by
  induction xs with
  | nil => intro a b ha h; cases h; exact ha
  | cons x xs ih =>
    intro a b ha h
    obtain ⟨c, hc, hb⟩ := List.foldlM_cons_ok.1 h
    exact ih (fun y hy => hstep y (List.mem_cons_of_mem _ hy))
      (hstep x List.mem_cons_self a c ha hc) hb

end Runs

namespace Query

variable {α κ : Type} [LinearOrder κ] (key : α → κ)

/-- `ORDER BY key DESC LIMIT 1` -/
def newest (rows : List α) : Option α := rows.argmax key

/-- `ORDER BY key ASC` -/
def ascending (rows : List α) : List α := rows.insertionSort (key · ≤ key ·)

/-- `ORDER BY key DESC` -/
def descending (rows : List α) : List α := (ascending key rows).reverse

/-- Each row's key is below every later row's. -/
def Ascending (rows : List α) : Prop := rows.Pairwise (key · < key ·)

variable {key} {rows rows' : List α}

theorem Ascending.filter (h : Ascending key rows) (p : α → Bool) :
    Ascending key (rows.filter p) := List.Pairwise.filter p h

theorem ascending_append :
    Ascending key (rows ++ rows') ↔
      Ascending key rows ∧ Ascending key rows' ∧ ∀ a ∈ rows, ∀ b ∈ rows', key a < key b :=
  List.pairwise_append

theorem ascending_concat {r : α} :
    Ascending key (rows ++ [r]) ↔ Ascending key rows ∧ ∀ a ∈ rows, key a < key r := by
  rw [ascending_append]
  simp [Ascending]

theorem ascending_eq (h : Ascending key rows) : ascending key rows = rows :=
  List.Pairwise.insertionSort_eq (h.imp fun hab => le_of_lt hab)

@[simp] theorem newest_nil : newest key ([] : List α) = none := rfl

theorem newest_mem {r : α} (h : newest key rows = some r) : r ∈ rows := List.argmax_mem h

theorem le_newest {r a : α} (h : newest key rows = some r) (ha : a ∈ rows) : key a ≤ key r :=
  List.le_of_mem_argmax ha h

theorem newest_eq_none_iff : newest key rows = none ↔ rows = [] := List.argmax_eq_none

theorem newest_concat {r : α} (h : ∀ a ∈ rows, key a < key r) :
    newest key (rows ++ [r]) = some r := by
  rw [newest, List.argmax_concat]
  cases hm : List.argmax key rows with
  | none => rfl
  | some m => simp [h m (List.argmax_mem hm)]

/-- The newest row of a log is its last. -/
theorem newest_eq_getLast? (h : Ascending key rows) : newest key rows = rows.getLast? := by
  induction rows using List.reverseRecOn with
  | nil => rfl
  | append_singleton rows r _ =>
    rw [List.getLast?_concat]
    exact newest_concat (ascending_concat.1 h).2

/-- A log ends in its newest row. -/
theorem eq_concat_of_newest (h : Ascending key rows) {r : α} (hr : newest key rows = some r) :
    ∃ older, rows = older ++ [r] := by
  rw [newest_eq_getLast? h] at hr
  exact List.getLast?_eq_some_iff.1 hr

/-- A log divides where a condition that stays true as the key grows becomes true. -/
theorem filter_not_append_filter (h : Ascending key rows) (p : α → Bool)
    (hp : ∀ a b, key a < key b → p a = true → p b = true) :
    rows.filter (fun a => !p a) ++ rows.filter p = rows := by
  induction rows with
  | nil => rfl
  | cons a rows ih =>
    have ha := List.pairwise_cons.1 h
    cases hpa : p a with
    | false => simp [hpa, ih ha.2]
    | true =>
      have hall : ∀ b ∈ rows, p b = true := fun b hb => hp a b (ha.1 b hb) hpa
      have hnone : rows.filter (fun a => !p a) = [] := by
        rw [List.filter_eq_nil_iff]
        intro b hb
        simp [hall b hb]
      rw [List.filter_cons, List.filter_cons, hnone, List.filter_eq_self.2 hall]
      simp [hpa]

/-- The rows up to a key end in the row that has it. -/
theorem filter_le_eq_concat (h : Ascending key rows) {r : α} (hr : r ∈ rows) :
    ∃ older, rows.filter (key · ≤ key r) = older ++ [r] ∧ ∀ a ∈ older, key a < key r := by
  have hasc : Ascending key (rows.filter (key · ≤ key r)) := h.filter _
  have hmem : r ∈ rows.filter (key · ≤ key r) := List.mem_filter.2 ⟨hr, by simp⟩
  obtain ⟨m, hm⟩ : ∃ m, newest key (rows.filter (key · ≤ key r)) = some m := by
    rw [← Option.isSome_iff_exists, Option.isSome_iff_ne_none, ne_eq, newest_eq_none_iff]
    exact List.ne_nil_of_mem hmem
  obtain ⟨older, holder⟩ := eq_concat_of_newest hasc hm
  have hlt := (ascending_concat.1 (holder ▸ hasc)).2
  have hmr : key m ≤ key r := by
    have := newest_mem hm
    simpa using (List.mem_filter.1 this).2
  have : r = m := by
    rw [holder, List.mem_append, List.mem_singleton] at hmem
    rcases hmem with ho | rfl
    · exact absurd (hlt r ho) (not_lt.2 hmr)
    · rfl
  subst this
  exact ⟨older, holder, hlt⟩

/-- A search finds the one row it is true of. -/
theorem find?_of_unique {p : α → Bool} {r : α} (hr : r ∈ rows) (hp : p r = true)
    (hunique : ∀ a ∈ rows, p a = true → a = r) : rows.find? p = some r := by
  cases h : rows.find? p with
  | none => exact absurd hp (List.find?_eq_none.1 h r hr)
  | some a => rw [hunique a (List.mem_of_find?_eq_some h) (List.find?_some h)]

/-- Of two members of a list with an order on its positions, one stands first. -/
theorem eq_or_related_of_pairwise {R : α → α → Prop} (h : rows.Pairwise R) {a b : α}
    (ha : a ∈ rows) (hb : b ∈ rows) : a = b ∨ R a b ∨ R b a := by
  by_cases hab : a = b
  · exact .inl hab
  · have : Std.Symm fun x y => R x y ∨ R y x := ⟨fun _ _ => Or.symm⟩
    exact .inr ((h.imp (S := fun x y => R x y ∨ R y x) Or.inl).forall ha hb hab)

end Query

/-- The document instance a row belongs to. -/
structure DocInstance where
  branch : BranchName
  id : EntityId
  scopeKey : ScopeKey
  deriving DecidableEq

inductive RevisionOp where
  | set | patch | delete
  deriving DecidableEq, Repr

/-- A revision row's `op` column with its `data` column decoded. -/
inductive RevisionData where
  | set (document : EntityDocument)
  | patch (patches : List PatchOp)
  | delete
  deriving DecidableEq

def RevisionData.op : RevisionData → RevisionOp
  | .set _ => .set
  | .patch _ => .patch
  | .delete => .delete

def RevisionData.isPatch : RevisionData → Bool
  | .patch _ => true
  | _ => false

structure RevisionRow where
  doc : DocInstance
  seq : Nat
  opIndex : Nat
  data : RevisionData
  commitSeq : Nat
  deriving DecidableEq

/-- The order of the rows of one instance: by seq, then by operation index. -/
def RevisionRow.position (r : RevisionRow) : ℕ ×ₗ ℕ := toLex (r.seq, r.opIndex)

structure HeadRow where
  doc : DocInstance
  seq : Nat
  opIndex : Nat
  op : RevisionOp
  deriving DecidableEq

structure SnapshotRow where
  doc : DocInstance
  seq : Nat
  value : EntityDocument
  deriving DecidableEq

structure BranchState where
  name : BranchName
  parentBranch : Option BranchName
  forkSeq : Option Nat
  createdSeq : Nat
  headSeq : Nat
  active : Bool
  deriving DecidableEq

structure IntegratedOperation where
  opId : JsString
  cursor : OpCursor
  submissionId : JsString
  payload : FabricValue
  deriving DecidableEq

structure ApplyOpResolution where
  operationIndex : Nat
  doc : DocInstance
  scope : CellScope
  path : ValuePath
  codec : JsString
  submissionId : JsString
  source : OpCursor
  target : OpCursor
  operations : List IntegratedOperation
  duplicate : Bool
  deriving DecidableEq

structure PendingResolution where
  localSeq : Int
  seq : Nat
  deriving DecidableEq

structure CommitResolution where
  seq : Nat
  resolvedPendingReads : List PendingResolution
  operationResolutions : List ApplyOpResolution
  deriving DecidableEq

structure CommitRow where
  seq : Nat
  branch : BranchName
  sessionId : JsString
  localSeq : Int
  original : ClientCommit
  resolution : CommitResolution
  commitClass : CommitClass
  holder : Option JsString
  annotations : Option (List DerivedWriteAnnotation)
  consequenceOf : Option (List JsString)
  derivedThrough : Option Nat
  actingPrincipal : Option JsString
  actingSession : Option JsString
  capabilityRef : Option JsString
  deriving DecidableEq

/-- A collaborative field: a path of a document instance, as an encoded pointer. -/
structure OpFieldKey where
  doc : DocInstance
  path : JsString
  deriving DecidableEq

structure OpFieldRow where
  key : OpFieldKey
  epoch : Nat
  codec : JsString
  version : Nat
  baselineHash : JsString
  materialized : FabricValue
  active : Bool
  commitSeq : Nat
  deriving DecidableEq

structure OpSubmissionRow where
  key : OpFieldKey
  epoch : Nat
  submissionId : JsString
  codec : JsString
  baseVersion : Nat
  submittedPayload : FabricValue
  integratedFrom : Nat
  integratedTo : Nat
  integratedPayload : List FabricValue
  commitSeq : Nat
  opIndex : Nat
  deriving DecidableEq

structure OpIntegratedRow where
  key : OpFieldKey
  epoch : Nat
  version : Nat
  opId : JsString
  submissionId : JsString
  payload : FabricValue
  commitSeq : Nat
  deriving DecidableEq

structure OpCheckpointRow where
  key : OpFieldKey
  epoch : Nat
  version : Nat
  materialized : FabricValue
  commitSeq : Nat
  deriving DecidableEq

structure OpFieldTables where
  epochs : List OpFieldRow
  submissions : List OpSubmissionRow
  integrated : List OpIntegratedRow
  checkpoints : List OpCheckpointRow
  deriving DecidableEq

/-- A row of the scheduler's basis index. -/
structure SchedulerBasisRow where
  branch : BranchName
  action : JsString
  actionScopeKey : ScopeKey
  entitySpace : JsString
  entity : EntityId
  entityScopeKey : ScopeKey
  seq : Nat
  deriving DecidableEq

/-- A pending cross-space event append. -/
structure OutboxRow where
  branch : BranchName
  targetSpace : JsString
  targetStream : EntityId
  targetStreamLink : Option FabricValue
  eventId : JsString
  payload : FabricValue
  actingPrincipal : Option JsString
  actingSession : Option JsString
  sessionlessSpaceScope : Bool
  capabilityRef : JsString
  sourceEvent : Option FabricValue
  createdSeq : Nat
  deriving DecidableEq

structure Store where
  branches : List BranchState
  commits : List CommitRow
  revisions : List RevisionRow
  heads : List HeadRow
  snapshots : List SnapshotRow
  opFields : OpFieldTables
  schedulerBasis : List SchedulerBasisRow
  outbox : List OutboxRow
  deriving DecidableEq

namespace Store

/-- A store as `INIT` leaves it: the default branch and nothing else. -/
def empty : Store where
  branches := [⟨DEFAULT_BRANCH, none, none, 0, 0, true⟩]
  commits := []
  revisions := []
  heads := []
  snapshots := []
  opFields := ⟨[], [], [], []⟩
  schedulerBasis := []
  outbox := []

/-- The revision rows of one instance. -/
def rowsOf (s : Store) (doc : DocInstance) : List RevisionRow :=
  s.revisions.filter (·.doc = doc)

def snapshotsOf (s : Store) (doc : DocInstance) : List SnapshotRow :=
  s.snapshots.filter (·.doc = doc)

/-- An operation index as a bound: `-1`, an index, or `Number.MAX_SAFE_INTEGER`,
which no index of an operation reaches. -/
inductive OpIndexBound where
  | start
  | index (n : Nat)
  | stop
  deriving DecidableEq

/-- `op_index > bound`. -/
def OpIndexBound.below : OpIndexBound → Nat → Bool
  | .start, _ => true
  | .index n, i => n < i
  | .stop, _ => false

/-- `seq > base_seq OR (seq = base_seq AND op_index > base_op_index)` -/
def isAfter (seq : Nat) (opIndex : OpIndexBound) (r : RevisionRow) : Bool :=
  seq < r.seq || (r.seq = seq && opIndex.below r.opIndex)

/-- `seq < :seq OR (seq = :seq AND op_index <= :op_index)` -/
def isUpTo (seq : Nat) (opIndex : OpIndexBound) (r : RevisionRow) : Bool :=
  !isAfter seq opIndex r

def selectBranch (s : Store) (branch : BranchName) : Option BranchState :=
  s.branches.find? (·.name = branch)

def selectHead (s : Store) (doc : DocInstance) : Option HeadRow :=
  s.heads.find? (·.doc = doc)

def selectRevisionRow (s : Store) (doc : DocInstance) (seq opIndex : Nat) : Option RevisionRow :=
  (s.rowsOf doc).find? fun r => r.seq = seq && r.opIndex = opIndex

/-- The head row joined with its revision. -/
def selectCurrentLocal (s : Store) (doc : DocInstance) : Option RevisionRow :=
  (s.selectHead doc).bind fun h => s.selectRevisionRow doc h.seq h.opIndex

def selectAtSeqLocal (s : Store) (doc : DocInstance) (seq : Nat) : Option RevisionRow :=
  Query.newest RevisionRow.position ((s.rowsOf doc).filter (·.seq ≤ seq))

def selectLatestBase (s : Store) (doc : DocInstance) (seq : Nat) (opIndex : OpIndexBound)
    (floor : Nat) : Option RevisionRow :=
  Query.newest RevisionRow.position
    ((s.rowsOf doc).filter fun r => !r.data.isPatch && floor ≤ r.seq && isUpTo seq opIndex r)

def selectLatestSnapshot (s : Store) (doc : DocInstance) (seq : Nat) : Option SnapshotRow :=
  Query.newest SnapshotRow.seq ((s.snapshotsOf doc).filter (·.seq ≤ seq))

def selectLatestSnapshotBelow (s : Store) (doc : DocInstance) (seq : Nat) : Option SnapshotRow :=
  Query.newest SnapshotRow.seq ((s.snapshotsOf doc).filter (·.seq < seq))

def selectPatches (s : Store) (doc : DocInstance) (baseSeq : Nat) (baseOpIndex : OpIndexBound)
    (seq : Nat) (opIndex : OpIndexBound) : List RevisionRow :=
  Query.ascending RevisionRow.position
    ((s.rowsOf doc).filter fun r =>
      r.data.isPatch && isAfter baseSeq baseOpIndex r && isUpTo seq opIndex r)

def selectPatchCount (s : Store) (doc : DocInstance) (afterSeq seq : Nat) : Nat :=
  ((s.rowsOf doc).filter fun r => r.data.isPatch && afterSeq < r.seq && r.seq ≤ seq).length

def serverSeq (s : Store) : Nat := (s.commits.map (·.seq)).foldl max 0

def nextSeq (s : Store) : Nat := s.serverSeq + 1

def selectExistingCommit (s : Store) (sessionKey : JsString) (localSeq : Int) : Option CommitRow :=
  s.commits.find? fun c => c.sessionId = sessionKey && c.localSeq = localSeq

def selectPendingResolution (s : Store) (sessionKey : JsString) (localSeq : Int) : Option Nat :=
  (s.selectExistingCommit sessionKey localSeq).map (·.seq)

def selectCommit (s : Store) (seq : Nat) : Option CommitRow := s.commits.find? (·.seq = seq)

/-- A true-basis read's exclusion of the own layers it names. -/
structure ConflictExclusion where
  sessionKey : JsString
  namedLocalSeqs : List Int
  deriving DecidableEq

/-- The `WHERE` clause of the `*_EXCLUDING_SESSION` statements: the row's commit
exists and is not one the read names. -/
def notExcluded (s : Store) (exclude : Option ConflictExclusion) (r : RevisionRow) : Bool :=
  match exclude with
  | none => true
  | some e => match s.selectCommit r.commitSeq with
    | none => false
    | some c => c.sessionId ≠ e.sessionKey || !(e.namedLocalSeqs.contains c.localSeq)

def selectSetDeleteConflict (s : Store) (doc : DocInstance) (afterSeq : Nat)
    (exclude : Option ConflictExclusion) : Option Nat :=
  (Query.newest RevisionRow.position ((s.rowsOf doc).filter fun r =>
    afterSeq < r.seq && !r.data.isPatch && s.notExcluded exclude r)).map (·.seq)

def selectPatchConflicts (s : Store) (doc : DocInstance) (afterSeq : Nat)
    (exclude : Option ConflictExclusion) : List RevisionRow :=
  Query.descending RevisionRow.position ((s.rowsOf doc).filter fun r =>
    afterSeq < r.seq && r.data.isPatch && s.notExcluded exclude r)

/-- `ORDER BY op_index ASC`; rows of one index stay in the order they were written. -/
def selectCommitRevisions (s : Store) (commitSeq : Nat) : List RevisionRow :=
  (s.revisions.filter (·.commitSeq = commitSeq)).insertionSort (·.opIndex ≤ ·.opIndex)

def insertRevision (s : Store) (r : RevisionRow) : Except EngineError Store := do
  require ((s.selectRevisionRow r.doc r.seq r.opIndex).isNone) (.constraint "revision")
  .ok { s with revisions := s.revisions ++ [r] }

def upsertHead (s : Store) (h : HeadRow) : Store :=
  { s with heads := s.heads.filter (·.doc ≠ h.doc) ++ [h] }

def insertCommit (s : Store) (c : CommitRow) : Except EngineError Store := do
  require ((s.selectCommit c.seq).isNone && (s.selectExistingCommit c.sessionId c.localSeq).isNone)
    (.constraint "commit")
  .ok { s with commits := s.commits ++ [c] }

def updateCommitResolution (s : Store) (seq : Nat) (resolution : CommitResolution) : Store :=
  { s with commits := s.commits.map fun c => if c.seq = seq then { c with resolution } else c }

def insertSnapshot (s : Store) (row : SnapshotRow) : Store :=
  { s with snapshots :=
      s.snapshots.filter (fun r => !(r.doc = row.doc && r.seq = row.seq)) ++ [row] }

/-- Deletes an instance's snapshots but the `retention` newest. -/
def deleteOldSnapshots (s : Store) (doc : DocInstance) (retention : Nat) : Store :=
  let kept := ((Query.descending SnapshotRow.seq (s.snapshotsOf doc)).take retention).map (·.seq)
  { s with snapshots := s.snapshots.filter fun r => !(r.doc = doc && !kept.contains r.seq) }

def updateBranchHead (s : Store) (branch : BranchName) (seq : Nat) : Store :=
  { s with branches := s.branches.map fun b =>
      if b.name = branch then { b with headSeq := if b.headSeq < seq then seq else b.headSeq }
      else b }

/-- Like `selectBranch`, except that a branch with no row throws. -/
def requireBranch (s : Store) (branch : BranchName) : Except EngineError BranchState :=
  match s.selectBranch branch with
  | some b => .ok b
  | none => .error (.error (.append "unknown branch: " branch))

def createBranch (s : Store) (name : BranchName) (parentBranch : Option BranchName)
    (forkSeq : Option Nat) : Except EngineError Store :=
  if name = DEFAULT_BRANCH then do
    let _ ← s.requireBranch DEFAULT_BRANCH
    .ok s
  else match s.selectBranch name with
    | some _ => .ok s
    | none => do
      let parent ← s.requireBranch (parentBranch.getD DEFAULT_BRANCH)
      let fork := forkSeq.getD parent.headSeq
      .ok { s with branches := s.branches ++ [⟨name, some parent.name, some fork, fork, fork, true⟩] }

def deleteBranch (s : Store) (branch : BranchName) : Except EngineError Store := do
  let _ ← s.requireBranch branch
  .ok { s with branches := s.branches.map fun b =>
      if b.name = branch && b.name ≠ DEFAULT_BRANCH then { b with active := false } else b }

end Store

/-- What the document cache holds for a row: nothing, or the document the row
decoded to, `none` inside for a deleted one. -/
abbrev CachedDocument := RevisionRow → Option (Option EntityDocument)

/-- A cache that holds nothing. -/
def noCache : CachedDocument := fun _ => none

/-- The change a revision row makes to its document. -/
def RevisionData.entry : RevisionData → LogEntry (Option EntityDocument) (List PatchOp)
  | .set d => .reset (some d)
  | .delete => .reset none
  | .patch ps => .change ps

/-- A stored patch applied to a possibly absent document. -/
def applyRevision (document : Option EntityDocument) (patches : List PatchOp) :
    Except EngineError (Option EntityDocument) :=
  some <$> liftPatch (applyPatchToDocument document patches)

/-- The patch list of a patch row. -/
def storedPatchList (row : RevisionRow) : List PatchOp :=
  match row.data with
  | .patch patches => patches
  | _ => []

def replayPatches (document : EntityDocument) (patches : List RevisionRow) :
    Except EngineError EntityDocument :=
  patches.foldlM
    (fun d row => liftPatch (applyPatchToDocument (some d) (storedPatchList row))) document

namespace Store

structure BaseAndSnapshot where
  baseRow : Option RevisionRow
  snapshotRow : Option SnapshotRow

def latestBaseAndSnapshot (s : Store) (doc : DocInstance) (seq : Nat) (opIndex : OpIndexBound)
    (snapshotBelow : Bool) : BaseAndSnapshot :=
  let snapshotRow :=
    if snapshotBelow then s.selectLatestSnapshotBelow doc seq else s.selectLatestSnapshot doc seq
  let floor := (snapshotRow.map (·.seq)).getD 0
  ⟨s.selectLatestBase doc seq opIndex floor, snapshotRow⟩

/-- Where a replay starts: after which seq and operation index. -/
def BaseAndSnapshot.start (b : BaseAndSnapshot) : Nat × OpIndexBound :=
  match b.snapshotRow, b.baseRow with
  | some snapshot, none => (snapshot.seq, .stop)
  | some snapshot, some base =>
    if base.seq ≤ snapshot.seq then (snapshot.seq, .stop) else (base.seq, .index base.opIndex)
  | none, some base => (base.seq, .index base.opIndex)
  | none, none => (0, .start)

/-- The newest revision of the chain the cache still holds, and the rows after it. -/
def resumePoint (cached : CachedDocument) :
    List RevisionRow → Option (EntityDocument × List RevisionRow)
  | [] => none
  | row :: rest => match resumePoint cached rest with
    | some found => some found
    | none => match cached row with
      | some (some document) => some (document, rest)
      | _ => none

def cachedSnapshottedRevision (s : Store) (cached : CachedDocument) (doc : DocInstance)
    (seq : Nat) : Option EntityDocument :=
  match s.selectAtSeqLocal doc seq with
  | some row => if row.seq = seq then (cached row).join else none
  | none => none

/-- The document a replay starts from when the cache holds none of its chain. -/
def baseDocument (s : Store) (cached : CachedDocument) (doc : DocInstance) (b : BaseAndSnapshot) :
    EntityDocument :=
  match b.snapshotRow with
  | some snapshot =>
    if snapshot.seq = b.start.1 then
      (s.cachedSnapshottedRevision cached doc snapshot.seq).getD snapshot.value
    else fromBaseRow b.baseRow
  | none => fromBaseRow b.baseRow
where
  fromBaseRow : Option RevisionRow → EntityDocument
    | some row => match row.data with
      | .set document => ((cached row).join).getD document
      | _ => emptyEntityDocument
    | none => emptyEntityDocument

def reconstructPatchedDocument (s : Store) (cached : CachedDocument) (doc : DocInstance)
    (seq opIndex : Nat) (exact : Bool) : Except EngineError EntityDocument :=
  let base := s.latestBaseAndSnapshot doc seq (.index opIndex) exact
  let patches := s.selectPatches doc base.start.1 base.start.2 seq (.index opIndex)
  match resumePoint cached patches with
  | some (document, rest) => replayPatches document rest
  | none => replayPatches (s.baseDocument cached doc base) patches

/-- The document a resolved row stands for. -/
def rowDocument (s : Store) (cached : CachedDocument) (row : RevisionRow) :
    Except EngineError (Option EntityDocument) :=
  match cached row with
  | some document => .ok document
  | none => match row.data with
    | .set document => .ok (some document)
    | .delete => .ok none
    | .patch _ =>
      some <$> s.reconstructPatchedDocument cached row.doc row.seq row.opIndex false

def outOfRange (seq : Nat) (branch : BranchName) : EngineError :=
  .error (.append "seq " (.append (toString seq)
    (.append " is out of range for branch " branch)))

/-- `readRowForBranch`. A branch passes a read on to its parent, so the number of
branches bounds the depth. -/
def readRowFrom (s : Store) (id : EntityId) (scopeKey : ScopeKey) :
    Nat → BranchName → Option Nat → Except EngineError (Option RevisionRow)
  | 0, _, _ => .error (.error "Maximum call stack size exceeded")
  | fuel + 1, branch, seq? => do
    let state ← s.requireBranch branch
    let seq := seq?.getD state.headSeq
    let minSeq := if branch = DEFAULT_BRANCH then 0 else state.createdSeq
    require (minSeq ≤ seq && seq ≤ state.headSeq) (outOfRange seq branch)
    let currentRow := if seq = state.headSeq then s.selectCurrentLocal ⟨branch, id, scopeKey⟩
      else s.selectAtSeqLocal ⟨branch, id, scopeKey⟩ seq
    match currentRow, state.parentBranch with
    | some row, _ => .ok (some row)
    | none, none => .ok none
    | none, some parent =>
      readRowFrom s id scopeKey fuel parent (some (min seq (state.forkSeq.getD 0)))

def readRowForBranch (s : Store) (doc : DocInstance) (seq : Option Nat) :
    Except EngineError (Option RevisionRow) :=
  s.readRowFrom doc.id doc.scopeKey s.branches.length doc.branch seq

end Store

structure EntityState where
  row : RevisionRow
  scope : CellScope
  document : Option EntityDocument
  deriving DecidableEq

namespace Store

/-- The state of an instance as of a seq, or as of its branch's head. `doc.branch`
is the branch read; the state's row names the branch the read resolved to. -/
def readStateForScopeKey (s : Store) (cached : CachedDocument) (doc : DocInstance)
    (scope : CellScope) (seq : Option Nat) : Except EngineError (Option EntityState) := do
  match ← s.readRowForBranch doc seq with
  | none => .ok none
  | some row => do
    let document ← s.rowDocument cached row
    .ok (some ⟨row, scope, document⟩)

structure ReadOptions where
  id : EntityId
  scope : Option CellScope
  identity : ScopeKeyIdentity
  branch : BranchName
  seq : Option Nat
  scopeKey : Option ScopeKey

/-- The scope key a read names: the explicit one, or its scope's for the identity. -/
def ReadOptions.resolve (o : ReadOptions) : Except EngineError (CellScope × ScopeKey) :=
  match o.scopeKey with
  | some key => .ok (scopeOfScopeKey key, key)
  | none => do
    let key ← resolveScopeKey o.scope o.identity
    .ok (normalizeScope o.scope, key)

def readState (s : Store) (cached : CachedDocument) (o : ReadOptions) :
    Except EngineError (Option EntityState) := do
  let (scope, key) ← o.resolve
  s.readStateForScopeKey cached ⟨o.branch, o.id, key⟩ scope o.seq

def read (s : Store) (cached : CachedDocument) (o : ReadOptions) :
    Except EngineError (Option EntityDocument) := do
  let state ← s.readState cached o
  .ok (state.bind (·.document))

/-- The document of an instance on its branch, as a read decodes it without a cache. -/
def documentAt (s : Store) (doc : DocInstance) (seq : Option Nat) :
    Except EngineError (Option EntityDocument) := do
  match ← s.readRowForBranch doc seq with
  | none => .ok none
  | some row => s.rowDocument noCache row

def noRevision (id : EntityId) (seq opIndex : Nat) : EngineError :=
  .error (.append "no revision of " (.append id (.append " at seq " (.append (toString seq)
    (.append " op_index " (toString opIndex))))))

/-- The document a stored revision row produces, before any later operation of
its commit. -/
def readRevision (s : Store) (cached : CachedDocument) (doc : DocInstance) (seq opIndex : Nat) :
    Except EngineError (Option EntityDocument) :=
  match s.selectRevisionRow doc seq opIndex with
  | none => .error (noRevision doc.id seq opIndex)
  | some row => match row.data with
    | .set document => .ok (some document)
    | .delete => .ok none
    | .patch _ => some <$> s.reconstructPatchedDocument cached doc row.seq row.opIndex true

end Store
