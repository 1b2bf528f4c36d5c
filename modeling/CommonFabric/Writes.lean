import CommonFabric.Commit

/-!
# What the operations of a commit write

Every operation leaves a store that differs from the one before in rows written one
after another, each made its instance's head, and in the tables of collaborative
fields. The rows are those of the revisions reported.
-/

namespace Store

/-- The head an instance has once a row is written. -/
def headOf (r : RevisionRow) : HeadRow := ⟨r.doc, r.seq, r.opIndex, r.data.op⟩

/-- `s'` is `s` after the rows were written on the branch at the seq, one by one. -/
inductive Wrote (branch : BranchName) (seq : Nat) (s : Store) : List RevisionRow → Store → Prop
  | refl : Wrote branch seq s [] s
  | fields {rows : List RevisionRow} {s' : Store} (h : Wrote branch seq s rows s')
      (opFields : OpFieldTables) : Wrote branch seq s rows { s' with opFields }
  | row {rows : List RevisionRow} {s' s'' : Store} {r : RevisionRow}
      (h : Wrote branch seq s rows s') (hw : s'.writeRow r = .ok s'')
      (hbranch : r.doc.branch = branch) (hseq : r.seq = seq) (hcommit : r.commitSeq = seq) :
      Wrote branch seq s (rows ++ [r]) s''

theorem insertRevision_ok {s s' : Store} {r : RevisionRow} (h : s.insertRevision r = .ok s') :
    s.selectRevisionRow r.doc r.seq r.opIndex = none ∧
      s' = { s with revisions := s.revisions ++ [r] } := by
  obtain ⟨hnone, h⟩ := Except.check_ok_iff.1 h
  rw [require_ok_iff, Option.isNone_iff_eq_none] at hnone
  cases h
  exact ⟨hnone, rfl⟩

theorem writeRow_ok {s s' : Store} {r : RevisionRow} (h : s.writeRow r = .ok s') :
    s.selectRevisionRow r.doc r.seq r.opIndex = none ∧
      s' = { s with
        revisions := s.revisions ++ [r],
        heads := s.heads.filter (·.doc ≠ r.doc) ++ [headOf r] } := by
  obtain ⟨s₁, hins, h⟩ := Except.bind_ok_iff.1 h
  obtain ⟨hnone, rfl⟩ := insertRevision_ok hins
  cases h
  exact ⟨hnone, rfl⟩

namespace Wrote

variable {branch : BranchName} {seq : Nat} {s s' s'' : Store} {rows rows' : List RevisionRow}

theorem trans (h : Wrote branch seq s rows s') (h' : Wrote branch seq s' rows' s'') :
    Wrote branch seq s (rows ++ rows') s'' := by
  induction h' with
  | refl => rw [List.append_nil]; exact h
  | fields _ f ih => exact ih.fields f
  | row _ hw hb hs hc ih => rw [← List.append_assoc]; exact ih.row hw hb hs hc

theorem single {r : RevisionRow} (hw : s.writeRow r = .ok s') (hb : r.doc.branch = branch)
    (hs : r.seq = seq) (hc : r.commitSeq = seq) : Wrote branch seq s [r] s' :=
  Wrote.row .refl hw hb hs hc

theorem revisions (h : Wrote branch seq s rows s') : s'.revisions = s.revisions ++ rows := by
  induction h with
  | refl => simp
  | fields _ _ ih => exact ih
  | row _ hw _ _ _ ih =>
    obtain ⟨_, rfl⟩ := writeRow_ok hw
    simp [ih]

/-- A table that the writes of rows and of fields leave alone is as it was. -/
theorem frame {γ : Type} (view : Store → γ) (hfields : ∀ t f, view { t with opFields := f } = view t)
    (hrow : ∀ t revisions heads, view { t with revisions, heads } = view t)
    (h : Wrote branch seq s rows s') : view s' = view s := by
  induction h with
  | refl => rfl
  | fields _ f ih => rw [hfields, ih]
  | row _ hw _ _ _ ih =>
    obtain ⟨_, rfl⟩ := writeRow_ok hw
    rw [hrow, ih]

section

variable (h : Wrote branch seq s rows s')
include h

theorem commits : s'.commits = s.commits :=
  h.frame (·.commits) (fun _ _ => rfl) fun _ _ _ => rfl

theorem branches : s'.branches = s.branches :=
  h.frame (·.branches) (fun _ _ => rfl) fun _ _ _ => rfl

theorem snapshots : s'.snapshots = s.snapshots :=
  h.frame (·.snapshots) (fun _ _ => rfl) fun _ _ _ => rfl

theorem schedulerBasis : s'.schedulerBasis = s.schedulerBasis :=
  h.frame (·.schedulerBasis) (fun _ _ => rfl) fun _ _ _ => rfl

theorem outbox : s'.outbox = s.outbox :=
  h.frame (·.outbox) (fun _ _ => rfl) fun _ _ _ => rfl

theorem of_row {r : RevisionRow} (hr : r ∈ rows) :
    r.doc.branch = branch ∧ r.seq = seq ∧ r.commitSeq = seq := by
  induction h with
  | refl => cases hr
  | fields _ _ ih => exact ih hr
  | row _ _ hb hs hc ih =>
    rcases List.mem_append.1 hr with hr | hr
    · exact ih hr
    · obtain rfl := List.mem_singleton.1 hr; exact ⟨hb, hs, hc⟩

end

/-- What writing a row and writing fields keep, the writes keep. -/
theorem preserves (P : Store → Prop) (hfields : ∀ t f, P t → P { t with opFields := f })
    (hrow : ∀ t t' r, P t → t.writeRow r = .ok t' → P t')
    (h : Wrote branch seq s rows s') (hs : P s) : P s' := by
  induction h with
  | refl => exact hs
  | fields _ f ih => exact hfields _ f ih
  | row _ hw _ _ _ ih => exact hrow _ _ _ ih hw

/-- The writes of fields alone. -/
theorem ofFields (s : Store) (f : OpFieldTables) : Wrote branch seq s [] { s with opFields := f } :=
  Wrote.fields .refl f

end Wrote

/-- The row an operation's write leaves. -/
def writtenRow (ctx : WriteContext) (w : DocumentWrite) (scopeKey : ScopeKey) : RevisionRow :=
  ⟨⟨ctx.branch, w.id, scopeKey⟩, ctx.seq, ctx.opIndex, w.data, ctx.seq⟩

theorem writeOperation_ok {s s' : Store} {ctx : WriteContext} {w : DocumentWrite}
    {a : AppliedRevision} (h : s.writeOperation ctx w = .ok (s', a)) :
    ∃ key, writeScopeKey w.scope ctx.identity ctx.scopeKeyOverride = .ok key ∧
      s.writeRow (writtenRow ctx w key) = .ok s' ∧
      a = ⟨writtenRow ctx w key,
        if normalizeScope w.scope = DEFAULT_SCOPE then none else some (normalizeScope w.scope),
        false⟩ := by
  obtain ⟨key, hkey, h⟩ := Except.bind_ok_iff.1 h
  obtain ⟨s₁, hw, h⟩ := Except.bind_ok_iff.1 h
  cases h
  exact ⟨key, hkey, hw, rfl⟩

theorem writeOperation_wrote {s s' : Store} {ctx : WriteContext} {w : DocumentWrite}
    {a : AppliedRevision} (h : s.writeOperation ctx w = .ok (s', a)) :
    Wrote ctx.branch ctx.seq s [a.row] s' ∧ a.row.opIndex = ctx.opIndex ∧ a.row.doc.id = w.id := by
  obtain ⟨key, _, hw, rfl⟩ := writeOperation_ok h
  exact ⟨.single hw rfl rfl rfl, rfl, rfl⟩

end Store

/-- The revisions' rows, in order. -/
abbrev rowsOfRevisions (revisions : List AppliedRevision) : List RevisionRow :=
  revisions.map (·.row)

namespace OpField

open Store

variable {e : Engine} {s s' : Store} {ctx : WriteContext} {branch : BranchName} {seq : Nat}

theorem insertCheckpoint_wrote {row : OpCheckpointRow} (h : insertCheckpoint s row = .ok s') :
    Wrote branch seq s [] s' := by
  obtain ⟨_, h⟩ := Except.check_ok_iff.1 h
  cases h
  exact .ofFields _ _

theorem insertIntegrated_wrote {rows : List OpIntegratedRow}
    (h : insertIntegrated s rows = .ok s') : Wrote branch seq s [] s' := by
  obtain ⟨_, h⟩ := Except.check_ok_iff.1 h
  cases h
  exact .ofFields _ _

theorem insertSubmission_wrote {row : OpSubmissionRow} (h : insertSubmission s row = .ok s') :
    Wrote branch seq s [] s' := by
  obtain ⟨_, h⟩ := Except.check_ok_iff.1 h
  cases h
  exact .ofFields _ _

variable {materialized : FabricValue} {op : ApplyOpOperation} {prior : Option OpFieldRow}

theorem maybeCheckpoint_wrote {key : OpFieldKey} {epoch version nextVersion : Nat}
    (h : maybeCheckpoint e s seq key epoch version nextVersion materialized = .ok s') :
    Wrote branch seq s [] s' := by
  unfold maybeCheckpoint at h
  split at h
  · cases h; exact .refl
  · obtain ⟨s₁, hins, h⟩ := Except.bind_ok_iff.1 h
    have h₁ : Wrote branch seq s [] s₁ := insertCheckpoint_wrote hins
    split at h
    · split at h
      · cases h; exact h₁.fields _
      · cases h; exact h₁
    · cases h; exact h₁

theorem openEpoch_wrote {key : OpFieldKey} {current : FabricValue} {f : FieldState}
    (h : openEpoch e s seq key op prior current = .ok (s', f)) : Wrote branch seq s [] s' := by
  obtain ⟨_, h⟩ := Except.check_ok_iff.1 h
  obtain ⟨_, h⟩ := Except.check_ok_iff.1 h
  obtain ⟨s₁, hins, h⟩ := Except.bind_ok_iff.1 h
  cases h
  exact insertCheckpoint_wrote hins

/-- Revisions at the context's index, each of the operation's document or of an anchors
document. -/
def OfOperation (ctx : WriteContext) (op : ApplyOpOperation) (revisions : List AppliedRevision) :
    Prop :=
  ∀ x ∈ revisions, x.row.opIndex = ctx.opIndex ∧
    (x.row.doc.id = op.id ∨ isOperationAnchorsDocId x.row.doc.id = true)

theorem isOperationAnchorsDocId_anchors (h : Hashing) (id : EntityId) (path : ValuePath)
    (scope : Option CellScope) :
    isOperationAnchorsDocId (operationAnchorsDocId h id path scope) = true := by
  rw [isOperationAnchorsDocId, operationAnchorsDocId, JsString.startsWith, JsString.append,
    List.isPrefixOf_iff_prefix]
  exact List.prefix_append _ _

theorem enterEpoch_wrote {key : OpFieldKey} {current : FabricValue} {f : FieldState}
    (h : enterEpoch e s seq key op prior current = .ok (s', f)) : Wrote branch seq s [] s' := by
  unfold enterEpoch at h
  split at h
  · obtain ⟨_, _, h⟩ := Except.bind_ok_iff.1 h
    cases h
    exact .refl
  · exact openEpoch_wrote h

theorem writeValue_wrote {operations : List FabricValue} {written : List AppliedRevision}
    (h : writeValue s ctx op materialized operations = .ok (s', written)) :
    Wrote ctx.branch ctx.seq s (rowsOfRevisions written) s' ∧ OfOperation ctx op written := by
  unfold writeValue at h
  split at h
  · cases h; exact ⟨.refl, by simp [OfOperation]⟩
  · obtain ⟨⟨s₁, a⟩, ha, h⟩ := Except.bind_ok_iff.1 h
    cases h
    obtain ⟨hwrote, hindex, hid⟩ := writeOperation_wrote ha
    refine ⟨hwrote, fun x hx => ?_⟩
    obtain rfl := List.mem_singleton.1 hx
    exact ⟨hindex, .inl hid⟩

theorem writeMaterialized_wrote {h : Hashing}
    {operations : List FabricValue} {prior next : FieldAnchors} {revisions : List AppliedRevision}
    (hw : writeMaterialized h s ctx op materialized operations prior next = .ok (s', revisions)) :
    Wrote ctx.branch ctx.seq s (rowsOfRevisions revisions) s' ∧ OfOperation ctx op revisions := by
  obtain ⟨⟨s₁, written⟩, hfirst, hw⟩ := Except.bind_ok_iff.1 hw
  have h₁ := writeValue_wrote hfirst
  dsimp only at hw
  split at hw
  · cases hw; exact h₁
  · obtain ⟨⟨s₂, a⟩, ha, hw⟩ := Except.bind_ok_iff.1 hw
    cases hw
    obtain ⟨hwrote, hindex, hid⟩ := writeOperation_wrote ha
    refine ⟨?_, ?_⟩
    · simpa [rowsOfRevisions] using h₁.1.trans hwrote
    · intro x hx
      rcases List.mem_append.1 hx with hx | hx
      · exact h₁.2 x hx
      · obtain rfl := List.mem_singleton.1 hx
        refine ⟨hindex, .inr ?_⟩
        rw [show _ = (anchorsWrite h op next).id from hid]
        exact isOperationAnchorsDocId_anchors _ _ _ _

theorem applyFreshOperation_wrote {doc : DocInstance} {applied : AppliedOperation}
    (h : applyFreshOperation e s ctx doc op prior = .ok (s', applied)) :
    Wrote ctx.branch ctx.seq s (rowsOfRevisions applied.revisions) s' ∧
      OfOperation ctx op applied.revisions := by
  obtain ⟨_, _, h⟩ := Except.bind_ok_iff.1 h
  obtain ⟨_, _, h⟩ := Except.bind_ok_iff.1 h
  obtain ⟨⟨s₁, field⟩, hfield, h⟩ := Except.bind_ok_iff.1 h
  have h₁ : Wrote ctx.branch ctx.seq s [] s₁ := enterEpoch_wrote hfield
  obtain ⟨_, _, h⟩ := Except.bind_ok_iff.1 h
  obtain ⟨⟨materialized, operations⟩, _, h⟩ := Except.bind_ok_iff.1 h
  obtain ⟨_, _, h⟩ := Except.bind_ok_iff.1 h
  obtain ⟨_, _, h⟩ := Except.bind_ok_iff.1 h
  obtain ⟨s₂, hint, h⟩ := Except.bind_ok_iff.1 h
  obtain ⟨s₃, hcheck, h⟩ := Except.bind_ok_iff.1 h
  obtain ⟨s₄, hsub, h⟩ := Except.bind_ok_iff.1 h
  obtain ⟨⟨s₅, revisions⟩, hmat, h⟩ := Except.bind_ok_iff.1 h
  cases h
  obtain ⟨hwrote, hctx⟩ := writeMaterialized_wrote hmat
  have h₂ := (h₁.fields _).trans (insertIntegrated_wrote hint)
  have h₃ := (h₂.trans (maybeCheckpoint_wrote hcheck)).trans (insertSubmission_wrote hsub)
  exact ⟨by simpa using h₃.trans hwrote, hctx⟩

theorem applyOperation_wrote {applied : AppliedOperation}
    (h : applyOperation e s ctx op = .ok (s', applied)) :
    Wrote ctx.branch ctx.seq s (rowsOfRevisions applied.revisions) s' ∧
      OfOperation ctx op applied.revisions := by
  obtain ⟨_, h⟩ := Except.check_ok_iff.1 h
  obtain ⟨_, h⟩ := Except.check_ok_iff.1 h
  obtain ⟨_, h⟩ := Except.check_ok_iff.1 h
  obtain ⟨_, h⟩ := Except.check_ok_iff.1 h
  obtain ⟨key, _, h⟩ := Except.bind_ok_iff.1 h
  dsimp only at h
  split at h
  · obtain ⟨_, h⟩ := Except.check_ok_iff.1 h
    cases h
    exact ⟨.refl, by simp [OfOperation]⟩
  · exact applyFreshOperation_wrote h

theorem releaseOperationField_wrote {op : ReleaseOpFieldOperation}
    (h : releaseOperationField s ctx op = .ok s') : Wrote branch seq s [] s' := by
  obtain ⟨_, h⟩ := Except.check_ok_iff.1 h
  obtain ⟨_, h⟩ := Except.check_ok_iff.1 h
  obtain ⟨_, h⟩ := Except.check_ok_iff.1 h
  obtain ⟨_, _, h⟩ := Except.bind_ok_iff.1 h
  dsimp only at h
  split at h
  · cases h
  · obtain ⟨_, h⟩ := Except.check_ok_iff.1 h
    obtain ⟨_, h⟩ := Except.check_ok_iff.1 h
    cases h
    exact .ofFields _ _

theorem releaseEntityOperationFields_wrote {w : DocumentWrite}
    (h : releaseEntityOperationFields s ctx w = .ok s') : Wrote branch seq s [] s' := by
  obtain ⟨_, _, h⟩ := Except.bind_ok_iff.1 h
  cases h
  exact .ofFields _ _

end OpField

namespace Commit

open Store

variable {e : Engine} {o : ApplyCommitOptions} {a : Admission} {seq : Nat}

/-- What a step of the commit adds: rows at its own index, each reported. -/
structure StepWrote (branch : BranchName) (seq opIndex : Nat) (st st' : WriteState)
    (added : List AppliedRevision) : Prop where
  revisions : st'.revisions = st.revisions ++ added
  wrote : Wrote branch seq st.store (rowsOfRevisions added) st'.store
  opIndex : ∀ x ∈ added, x.row.opIndex = opIndex

theorem guardFields_wrote {s s' : Store} {ctx : WriteContext} {w : DocumentWrite}
    {branch : BranchName} (h : guardFields e s ctx w = .ok s') : Wrote branch seq s [] s' := by
  unfold guardFields at h
  split at h
  · exact OpField.releaseEntityOperationFields_wrote h
  · obtain ⟨_, h⟩ := Except.check_ok_iff.1 h
    cases h
    exact .refl

/-- A document write is left out, or stored as it is made effective. -/
theorem writeDocument_ok {opIndex : Nat} {st st' : WriteState} {w : DocumentWrite}
    (h : writeDocument e o a seq opIndex st w = .ok st') :
    ∃ s₁, guardFields e st.store (writeContext o seq opIndex) w = .ok s₁ ∧
      ((a.reads.elidedOpIndexes.contains opIndex = true ∧ st' = { st with store := s₁ }) ∨
        a.reads.elidedOpIndexes.contains opIndex = false ∧ ∃ effective key s₂ revision,
          effectiveWrite s₁ o seq opIndex (a.plan.filter (·.opIndex = opIndex)) w =
            .ok effective ∧
          writeScopeKey effective.scope o.actor (o.scopeKeyAt opIndex) = .ok key ∧
          s₁.writeRow (writtenRow (writeContext o seq opIndex) effective key) = .ok s₂ ∧
          revision.row = writtenRow (writeContext o seq opIndex) effective key ∧
          st' = { st with store := s₂, revisions := st.revisions ++ [revision] }) := by
  obtain ⟨s₁, hguard, h⟩ := Except.bind_ok_iff.1 h
  refine ⟨s₁, hguard, ?_⟩
  split at h
  · rename_i helided
    cases h
    exact .inl ⟨helided, rfl⟩
  · rename_i helided
    obtain ⟨effective, heffective, h⟩ := Except.bind_ok_iff.1 h
    obtain ⟨⟨s₂, revision⟩, hwrite, h⟩ := Except.bind_ok_iff.1 h
    obtain ⟨_, _, h⟩ := Except.bind_ok_iff.1 h
    cases h
    obtain ⟨key, hkey, hrow, rfl⟩ := writeOperation_ok hwrite
    exact .inr ⟨by simpa using helided, effective, key, s₂, _, heffective, hkey, hrow, rfl, rfl⟩

theorem writeDocument_wrote {opIndex : Nat} {st st' : WriteState} {w : DocumentWrite}
    (h : writeDocument e o a seq opIndex st w = .ok st') :
    ∃ added, StepWrote o.branch seq opIndex st st' added := by
  obtain ⟨s₁, hguard, ⟨_, rfl⟩ | ⟨_, effective, key, s₂, revision, _, _, hwrite, hrow, rfl⟩⟩ :=
    writeDocument_ok h
  · exact ⟨[], by simp, guardFields_wrote hguard, by simp⟩
  · have h₁ : Wrote o.branch seq st.store [] s₁ := guardFields_wrote hguard
    refine ⟨[revision], rfl, ?_, fun x hx => ?_⟩
    · rw [rowsOfRevisions, List.map_singleton, hrow]
      exact h₁.trans (.single hwrite rfl rfl rfl)
    · rw [List.mem_singleton.1 hx, hrow]; rfl

theorem writeApplyOp_wrote {opIndex : Nat} {st st' : WriteState} {op : ApplyOpOperation}
    (h : writeApplyOp e o seq opIndex st op = .ok st') :
    ∃ added, StepWrote o.branch seq opIndex st st' added := by
  obtain ⟨_, _, h⟩ := Except.bind_ok_iff.1 h
  obtain ⟨_, _, h⟩ := Except.bind_ok_iff.1 h
  obtain ⟨⟨s₁, applied⟩, happly, h⟩ := Except.bind_ok_iff.1 h
  cases h
  obtain ⟨hwrote, hof⟩ := OpField.applyOperation_wrote happly
  exact ⟨applied.revisions, rfl, hwrote, fun x hx => (hof x hx).1⟩

theorem writeStep_wrote {st st' : WriteState} {step : Operation × Nat}
    (h : writeStep e o a seq st step = .ok st') :
    ∃ added, StepWrote o.branch seq step.2 st st' added := by
  obtain ⟨operation, opIndex⟩ := step
  cases operation with
  | set | patch | delete => exact writeDocument_wrote h
  | applyOp op => exact writeApplyOp_wrote h
  | releaseOpField op =>
    obtain ⟨s₁, hrelease, h⟩ := Except.bind_ok_iff.1 h
    cases h
    exact ⟨[], by simp, OpField.releaseOperationField_wrote hrelease, by simp⟩
  | sqlite op =>
    obtain ⟨_, h⟩ := Except.check_ok_iff.1 h
    cases h
    exact ⟨[], by simp, .refl, by simp⟩

/-- Revisions in the order of their operations. -/
def IndexAscending (revisions : List AppliedRevision) : Prop :=
  revisions.Pairwise fun x y => x.row.opIndex ≤ y.row.opIndex

/-- The whole write loop: rows for steps in order, at the steps' indexes. -/
theorem writeSteps_wrote {steps : List (Operation × Nat)} {st st' : WriteState}
    (h : steps.foldlM (writeStep e o a seq) st = .ok st')
    (hsteps : steps.Pairwise fun x y => x.2 ≤ y.2) :
    ∃ added, st'.revisions = st.revisions ++ added ∧
      Wrote o.branch seq st.store (rowsOfRevisions added) st'.store ∧ IndexAscending added ∧
      ∀ x ∈ added, ∃ step ∈ steps, x.row.opIndex = step.2 := by
  induction steps generalizing st with
  | nil => cases h; exact ⟨[], by simp, .refl, by simp [IndexAscending], by simp⟩
  | cons step steps ih =>
    obtain ⟨st₁, hstep, h⟩ := List.foldlM_cons_ok.1 h
    obtain ⟨hfirst, hrest⟩ := List.pairwise_cons.1 hsteps
    obtain ⟨added, hadded⟩ := writeStep_wrote hstep
    obtain ⟨added', hrev, hwrote, hasc, hmem⟩ := ih h hrest
    refine ⟨added ++ added', ?_, ?_, ?_, ?_⟩
    · rw [hrev, hadded.revisions, List.append_assoc]
    · simpa [rowsOfRevisions] using hadded.wrote.trans hwrote
    · refine List.pairwise_append.2 ⟨?_, hasc, ?_⟩
      · refine List.pairwise_of_forall_mem_list fun x hx y hy => ?_
        rw [hadded.opIndex x hx, hadded.opIndex y hy]
      · intro x hx y hy
        obtain ⟨step', hs', hy'⟩ := hmem y hy
        rw [hadded.opIndex x hx, hy']
        exact hfirst step' hs'
    · intro x hx
      rcases List.mem_append.1 hx with hx | hx
      · exact ⟨step, List.mem_cons_self, hadded.opIndex x hx⟩
      · obtain ⟨step', hs', hy⟩ := hmem x hx
        exact ⟨step', List.mem_cons_of_mem _ hs', hy⟩

end Commit

namespace Streams

open Store

variable {ctx : WatermarkContext}

theorem le_nextSyntheticOpIndex {revisions : List AppliedRevision} {x : AppliedRevision}
    (hx : x ∈ revisions) : x.row.opIndex < nextSyntheticOpIndex revisions := by
  have : ∀ (l : List Nat) (n m : Nat), m ∈ l ∨ m ≤ n → m ≤ l.foldl max n := by
    intro l
    induction l with
    | nil => intro n m h; simpa using h
    | cons k l ih =>
      intro n m h
      apply ih
      rcases h with h | h
      · rcases List.mem_cons.1 h with rfl | h
        · exact .inr (le_max_right _ _)
        · exact .inl h
      · exact .inr (le_trans h (le_max_left _ _))
  exact this _ 0 _ (.inl (List.mem_map.2 ⟨x, hx, rfl⟩))

theorem maintainWatermarks_wrote {sidecars : List AppliedRevision} {s s' : Store} {n n' : Nat}
    {written written' : List AppliedRevision}
    (h : sidecars.foldlM (maintainWatermark ctx) (s, n, written) = .ok (s', n', written')) :
    ∃ added, written' = written ++ added ∧
      Wrote ctx.branch ctx.seq s (rowsOfRevisions added) s' ∧ Commit.IndexAscending added ∧
      (∀ x ∈ added, n ≤ x.row.opIndex) ∧ n ≤ n' := by
  induction sidecars generalizing s n written with
  | nil =>
    cases h
    exact ⟨[], by simp, .refl, by simp [Commit.IndexAscending], by simp, le_refl _⟩
  | cons sidecar sidecars ih =>
    obtain ⟨⟨s₁, n₁, written₁⟩, hstep, h⟩ := List.foldlM_cons_ok.1 h
    obtain ⟨frontier, _, hstep⟩ := Except.bind_ok_iff.1 hstep
    cases frontier with
    | none => cases hstep; exact ih h
    | some frontier =>
      obtain ⟨⟨s₂, applied⟩, hwrite, hstep⟩ := Except.bind_ok_iff.1 hstep
      cases hstep
      obtain ⟨hwrote, hindex, _⟩ := writeOperation_wrote hwrite
      obtain ⟨added, hrev, hwrote', hasc, hle, hn⟩ := ih h
      have hindex' : applied.row.opIndex = n := hindex
      refine ⟨applied :: added, ?_, ?_, ?_, ?_, by omega⟩
      · rw [hrev, List.append_assoc]; rfl
      · simpa [rowsOfRevisions] using hwrote.trans hwrote'
      · refine List.pairwise_cons.2 ⟨fun y hy => ?_, hasc⟩
        have := hle y hy
        omega
      · intro x hx
        rcases List.mem_cons.1 hx with rfl | hx
        · omega
        · have := hle x hx
          omega

theorem maintainStreamEventWatermarks_wrote {s s' : Store}
    {revisions revisions' : List AppliedRevision}
    (h : maintainStreamEventWatermarks s ctx revisions = .ok (s', revisions')) :
    ∃ added, revisions' = revisions ++ added ∧
      Wrote ctx.branch ctx.seq s (rowsOfRevisions added) s' ∧ Commit.IndexAscending added ∧
      ∀ x ∈ added, nextSyntheticOpIndex revisions ≤ x.row.opIndex := by
  obtain ⟨⟨s₁, n, written⟩, hfold, h⟩ := Except.bind_ok_iff.1 h
  cases h
  obtain ⟨added, hrev, hwrote, hasc, hle, _⟩ := maintainWatermarks_wrote hfold
  rw [List.nil_append] at hrev
  exact ⟨added, by rw [hrev], hwrote, hasc, hle⟩

end Streams
