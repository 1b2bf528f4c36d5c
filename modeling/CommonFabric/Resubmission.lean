import CommonFabric.ContentPass
import CommonFabric.History

/-!
# A commit submitted again

A commit that was accepted is answered, whenever it comes again, from the rows it left.
Everything of the first answer is found there but which operations were elided: an
operation counts as elided when no revision stands at its index, which holds of some
operations that were applied.
-/

namespace Store

variable {s s' : Store} {opens : Engine → Prop}

theorem serverSeq_append {more : List CommitRow} (h : s'.commits = s.commits ++ more) :
    s.serverSeq ≤ s'.serverSeq := by
  rw [serverSeq, serverSeq, h, List.map_append, List.foldl_append]
  exact (le_foldl_max _ _).1

/-- A transaction adds commits and keeps those it finds. -/
theorem Step.commits (h : Step opens s s') (hs : s.Sound) :
    ∃ more, s'.commits = s.commits ++ more := by
  obtain ⟨e, o, sessionKey, a, t, r, ha, _, hmore⟩ | ⟨_, hmore⟩ := h.logged hs
  · exact ⟨_, hmore.trans ha.effect.commits⟩
  · exact ⟨[], by simp [hmore]⟩

/-- Later commits, and rows of theirs alone. -/
theorem Later.commits (h : Later opens s s') (hs : s.Sound) :
    (∃ more, s'.commits = s.commits ++ more) ∧
      ∃ rows, s'.revisions = s.revisions ++ rows ∧ ∀ r ∈ rows, s.serverSeq < r.commitSeq := by
  induction h with
  | refl => exact ⟨⟨[], by simp⟩, [], by simp, by simp⟩
  | @tail t t' hlater hstep ih =>
    obtain ⟨⟨more, hmore⟩, rows, hrows, hnew⟩ := ih
    have ht : t.Sound := Later.sound hlater hs
    obtain ⟨more', hmore'⟩ := hstep.commits ht
    obtain ⟨rows', hrows', hnew'⟩ := hstep.revisions ht
    refine ⟨⟨more ++ more', by rw [hmore', hmore, List.append_assoc]⟩, rows ++ rows',
      by rw [hrows', hrows, List.append_assoc], fun r hr => ?_⟩
    rcases List.mem_append.1 hr with hr | hr
    · exact hnew r hr
    · have hseq := ((hstep.sound ht).rowCommit r
        (by rw [hrows']; exact List.mem_append_right _ hr)).1
      have := serverSeq_append hmore
      have := hnew' r hr
      rw [hseq, this, nextSeq]
      omega

end Store

namespace Commit

open Store ContentAddressed

variable {e e' : Engine} {s s₁ s₂ : Store} {o : ApplyCommitOptions} {sessionKey : JsString}
  {a : Admission} {r : AppliedCommit} {opens : Engine → Prop}

theorem insertionSort_opIndex {revisions : List AppliedRevision} (h : IndexAscending revisions) :
    (rowsOfRevisions revisions).insertionSort (·.opIndex ≤ ·.opIndex) =
      rowsOfRevisions revisions :=
  List.Pairwise.insertionSort_eq (List.pairwise_map.2 h)

/-- The rows under an accepted commit's seq are those it reported, for good. -/
theorem Accepted.selectCommitRevisions (hs : s.Sound) (h : Accepted e s o sessionKey a s₁ r)
    (hlater : Later opens s₁ s₂) : s₂.selectCommitRevisions r.seq = rowsOfRevisions r.revisions := by
  obtain ⟨_, rows, hrows, hnew⟩ := hlater.commits h.sound
  have hold : s.revisions.filter (·.commitSeq = r.seq) = [] := by
    rw [List.filter_eq_nil_iff]
    intro x hx
    have := hs.row_lt_nextSeq hx
    rw [h.effect.seq, (hs.rowCommit x hx).1]
    simp only [decide_eq_true_eq]
    omega
  have hown : (rowsOfRevisions r.revisions).filter (·.commitSeq = r.seq) =
      rowsOfRevisions r.revisions := by
    rw [List.filter_eq_self]
    intro x hx
    obtain ⟨y, hy, rfl⟩ := List.mem_map.1 hx
    simp [h.effect.seq, (h.effect.ofRow y hy).2.2]
  have hrest : rows.filter (·.commitSeq = r.seq) = [] := by
    rw [List.filter_eq_nil_iff]
    intro x hx
    have hle : r.seq ≤ s₁.serverSeq := by
      have hmem : finalRow o sessionKey a s.nextSeq r.operationResolutions ∈ s₁.commits := by
        rw [h.effect.commits]; simp
      rw [h.effect.seq]
      exact seq_le_serverSeq hmem
    have := hnew x hx
    simp only [decide_eq_true_eq]
    omega
  rw [Store.selectCommitRevisions, hrows, h.effect.revisions, List.filter_append,
    List.filter_append, hold, hown, hrest, List.nil_append, List.append_nil,
    insertionSort_opIndex h.effect.ascending]

/-- The commit's own row is found under its session and local seq, for good. -/
theorem Accepted.selectExistingCommit (h : Accepted e s o sessionKey a s₁ r)
    (hlater : Later opens s₁ s₂) : s₂.selectExistingCommit sessionKey o.commit.localSeq =
      some (finalRow o sessionKey a s.nextSeq r.operationResolutions) := by
  obtain ⟨⟨more, hmore⟩, _⟩ := hlater.commits h.sound
  rw [Store.selectExistingCommit, hmore, h.effect.commits, List.find?_append, List.find?_append]
  have hnone := h.fresh
  rw [Store.selectExistingCommit] at hnone
  rw [hnone]
  simp [finalRow, commitRow]

/-- What a commit is answered when it comes again. -/
def replayAnswer (o : ApplyCommitOptions) (r : AppliedCommit) : AppliedCommit where
  seq := r.seq
  branch := r.branch
  revisions := (rowsOfRevisions r.revisions).map (replayedRevision o.commit.operations)
  operationResolutions := r.operationResolutions
  elidedOpIndexes := replayedElided o.commit.operations (rowsOfRevisions r.revisions)
  replayed := true

/-- A commit that comes again is answered from its rows, by whatever engine, and changes no
table. -/
theorem Accepted.resubmitted (hs : s.Sound) (h : Accepted e s o sessionKey a s₁ r)
    (hkey : resolveCommitSessionKey o.sessionId o.principal = .ok sessionKey)
    (hclass : (decide (o.commitClass ≠ .derived) || e'.serverExecution) = true)
    (hlater : Later opens s₁ s₂) :
    applyCommitTransaction e' s₂ o = .ok (s₂, replayAnswer o r) := by
  have hrows := h.selectCommitRevisions hs hlater
  simp only [applyCommitTransaction, hclass, require, if_true, Except.ok_bind, hkey,
    h.selectExistingCommit hlater]
  have hreplay : replayCommit s₂ o (finalRow o sessionKey a s.nextSeq r.operationResolutions) =
      .ok (replayAnswer o r) := by
    rw [h.effect.seq] at hrows
    simp [replayCommit, finalRow, commitRow, require, hrows, replayAnswer, h.effect.seq,
      h.effect.branch]
  rw [hreplay]
  rfl

/-- Indexes of document writes among the steps, in order. -/
def IndexesOfWrites (steps : List (Operation × Nat)) (indexes : List Nat) : Prop :=
  ∃ writes, List.Sublist writes steps ∧ writes.map (·.2) = indexes ∧
    ∀ x ∈ writes, x.1.write?.isSome = true

theorem groupWrites_ok {ctx : PassContext} {elided : List Nat}
    {steps : List (Operation × Nat)} : ∀ {groups groups' : List Identity.DocGroup},
      Identity.groupWrites ctx elided groups steps = .ok (some groups') →
      ∀ x ∈ steps, (Identity.setOrPatch? x.1).isSome = true := by
  induction steps with
  | nil => intro _ _ _ x hx; cases hx
  | cons step steps ih =>
    intro groups groups' h x hx
    obtain ⟨next, hstep, h⟩ := Except.bind_ok_iff.1 h
    cases next with
    | none => cases h
    | some next =>
      rcases List.mem_cons.1 hx with rfl | hx
      · unfold Identity.groupStep at hstep
        split at hstep
        · cases hstep
        · rename_i w hw; rw [hw]; rfl
      · exact ih h x hx

theorem write?_of_setOrPatch? {operation : Operation}
    (h : (Identity.setOrPatch? operation).isSome = true) : operation.write?.isSome = true := by
  unfold Identity.setOrPatch? at h
  cases hw : operation.write? with
  | none => rw [hw] at h; cases h
  | some w => rfl

/-- Whichever way its reads were admitted, a commit elides document writes alone. -/
theorem Admitted.indexesOfWrites (h : Admitted e s o sessionKey a) :
    IndexesOfWrites o.commit.operations.zipIdx a.reads.elidedOpIndexes := by
  obtain ⟨elided, hpass, hreads⟩ := h.elided
  rcases admitReads_ok hreads with ⟨_, heq, _⟩ | ⟨_, heq, _, hidentity⟩
  · obtain ⟨sets, hsub, hmap, hsets⟩ := validateContentAddressed_elided hpass
    refine ⟨sets, hsub, hmap.trans heq.symm, fun x hx => ?_⟩
    obtain ⟨id, scope, value, hop⟩ := hsets x hx
    rw [hop]; rfl
  · refine ⟨_, List.Sublist.refl _, ?_, fun x hx => ?_⟩
    · rw [heq, List.zipIdx_map_snd, List.range_eq_range']
    · unfold Identity.isIdentityCommit at hidentity
      split at hidentity
      · cases hidentity
      · obtain ⟨groups, hgroups, hidentity⟩ := Except.bind_ok_iff.1 hidentity
        cases groups with
        | none => cases hidentity
        | some groups => exact write?_of_setOrPatch? (groupWrites_ok hgroups x hx)

/-- A sublist is what a filter by its keys finds, where keys are distinct. -/
theorem filter_eq_of_sublist {α : Type} {key : α → Nat} {xs ys : List α}
    (h : List.Sublist xs ys) (hnodup : (ys.map key).Nodup) :
    ys.filter (fun y => (xs.map key).contains (key y)) = xs := by
  induction h with
  | slnil => rfl
  | @cons xs ys y hsub ih =>
    obtain ⟨hy, hnodup⟩ := List.nodup_cons.1 hnodup
    rw [List.filter_cons_of_neg, ih hnodup]
    simp only [List.contains_iff_mem]
    exact fun hmem => hy ((hsub.map key).subset hmem)
  | @cons_cons xs ys y hsub ih =>
    obtain ⟨hy, hnodup⟩ := List.nodup_cons.1 hnodup
    rw [List.filter_cons_of_pos (by simp)]
    congr 1
    conv_rhs => rw [← ih hnodup]
    apply List.filter_congr
    intro z hz
    have hne : key z ≠ key y := fun heq => hy (heq ▸ List.mem_map.2 ⟨z, hz, rfl⟩)
    simp [hne]

/-- The elided indexes are those of the operations at them, in order. -/
theorem IndexesOfWrites.eq_filter {operations : List Operation} {indexes : List Nat}
    (h : IndexesOfWrites operations.zipIdx indexes) :
    indexes = (operations.zipIdx.filter fun x => indexes.contains x.2).map (·.2) := by
  obtain ⟨writes, hsub, rfl, _⟩ := h
  rw [filter_eq_of_sublist hsub]
  rw [List.zipIdx_map_snd]
  exact List.nodup_range'

theorem IndexesOfWrites.write {operations : List Operation} {indexes : List Nat}
    (h : IndexesOfWrites operations.zipIdx indexes) {x : Operation × Nat}
    (hx : x ∈ operations.zipIdx) (hmem : x.2 ∈ indexes) : x.1.write?.isSome = true := by
  obtain ⟨writes, hsub, rfl, hwrites⟩ := h
  obtain ⟨y, hy, hindex⟩ := List.mem_map.1 hmem
  have hy' := List.mem_zipIdx_iff_getElem?.1 (hsub.subset hy)
  rw [hindex, List.mem_zipIdx_iff_getElem?.1 hx] at hy'
  rw [Option.some.inj hy']
  exact hwrites y hy

/-- A document write that is not elided leaves a revision at its index. -/
theorem writeStep_revision {seq : Nat} {st st' : WriteState} {step : Operation × Nat}
    (h : writeStep e o a seq st step = .ok st') (hwrite : step.1.write?.isSome = true)
    (helided : a.reads.elidedOpIndexes.contains step.2 = false) :
    ∃ x ∈ st'.revisions, x.row.opIndex = step.2 := by
  have hdocument : ∀ {w : DocumentWrite}, writeDocument e o a seq step.2 st w = .ok st' →
      ∃ x ∈ st'.revisions, x.row.opIndex = step.2 := by
    intro w h
    obtain ⟨_, _, ⟨hcontains, _⟩ | ⟨_, _, _, _, revision, _, _, _, hrow, rfl⟩⟩ := writeDocument_ok h
    · rw [helided] at hcontains; cases hcontains
    · exact ⟨revision, by simp, by rw [hrow]; rfl⟩
  obtain ⟨operation, opIndex⟩ := step
  cases operation with
  | set | patch | delete => exact hdocument h
  | applyOp | releaseOpField | sqlite => cases hwrite

theorem writeSteps_revisions {seq : Nat} {steps : List (Operation × Nat)} {st st' : WriteState}
    (h : steps.foldlM (writeStep e o a seq) st = .ok st') :
    (∀ x ∈ st.revisions, x ∈ st'.revisions) ∧
      ∀ step ∈ steps, step.1.write?.isSome = true →
        a.reads.elidedOpIndexes.contains step.2 = false →
        ∃ x ∈ st'.revisions, x.row.opIndex = step.2 := by
  induction steps generalizing st with
  | nil => cases h; exact ⟨fun _ hx => hx, by simp⟩
  | cons step steps ih =>
    obtain ⟨st₁, hstep, h⟩ := List.foldlM_cons_ok.1 h
    obtain ⟨added, hadded⟩ := writeStep_wrote hstep
    obtain ⟨hkeep, hrest⟩ := ih h
    refine ⟨fun x hx => hkeep x (by rw [hadded.revisions]; exact List.mem_append_left _ hx), ?_⟩
    intro step' hstep' hwrite helided
    rcases List.mem_cons.1 hstep' with rfl | hstep'
    · obtain ⟨x, hx, hindex⟩ := writeStep_revision hstep hwrite helided
      exact ⟨x, hkeep x hx, hindex⟩
    · exact hrest step' hstep' hwrite helided

theorem Accepted.revision_at (h : Accepted e s o sessionKey a s₁ r) {x : Operation × Nat}
    (hx : x ∈ o.commit.operations.zipIdx) (hwrite : x.1.write?.isSome = true)
    (helided : x.2 ∉ r.elidedOpIndexes) : ∃ y ∈ r.revisions, y.row.opIndex = x.2 := by
  obtain ⟨st, s₂, _, hsteps, hmaintain, _, _⟩ := writeCommit_ok h.written
  obtain ⟨added, hadded, _⟩ := maintainWatermarks_wrote hmaintain
  rw [h.effect.elided] at helided
  obtain ⟨y, hy, hindex⟩ := (writeSteps_revisions hsteps).2 x hx hwrite
    (by simpa using helided)
  exact ⟨y, by rw [hadded]; exact List.mem_append_left _ hy, hindex⟩

/-- Of the rows that are stored of a commit, each field operation has one at its index, and no
elided operation has. -/
structure StoredWhatItApplied (operations : List Operation) (rows : List RevisionRow)
    (elided : List Nat) : Prop where
  fields : ∀ x ∈ operations.zipIdx, x.1.isFieldOperation = true →
    ∃ row ∈ rows, row.opIndex = x.2
  elided : ∀ row ∈ rows, row.opIndex ∉ elided

/-- The answers agree on all that a commit is answered: its seq and branch, its
revisions' rows, what its field operations resolved to, and what was elided. -/
structure SameAnswer (r r' : AppliedCommit) : Prop where
  seq : r'.seq = r.seq
  branch : r'.branch = r.branch
  revisions : rowsOfRevisions r'.revisions = rowsOfRevisions r.revisions
  operationResolutions : r'.operationResolutions = r.operationResolutions
  elidedOpIndexes : r'.elidedOpIndexes = r.elidedOpIndexes

theorem mem_replayedElided {operations : List Operation} {rows : List RevisionRow} {i : Nat} :
    i ∈ replayedElided operations rows ↔ ∃ operation, (operation, i) ∈ operations.zipIdx ∧
      operation.isSqlite = false ∧ ∀ row ∈ rows, row.opIndex ≠ i := by
  simp [replayedElided]

theorem replayedElided_eq_iff (h : Accepted e s o sessionKey a s₁ r) :
    replayedElided o.commit.operations (rowsOfRevisions r.revisions) = r.elidedOpIndexes ↔
      StoredWhatItApplied o.commit.operations (rowsOfRevisions r.revisions) r.elidedOpIndexes := by
  have hwrites := h.admitted.indexesOfWrites
  rw [← h.effect.elided] at hwrites
  constructor
  · intro heq
    constructor
    · intro x hx hfield
      by_contra hnone
      have hmem : x.2 ∈ replayedElided o.commit.operations (rowsOfRevisions r.revisions) := by
        refine mem_replayedElided.2 ⟨x.1, hx, ?_, fun row hrow hindex => ?_⟩
        · cases hop : x.1 <;> simp_all [Operation.isFieldOperation, Operation.isSqlite]
        · exact hnone ⟨row, hrow, hindex⟩
      have hwrite := hwrites.write hx (heq ▸ hmem)
      cases hop : x.1 <;> simp_all [Operation.isFieldOperation, Operation.write?]
    · intro row hrow hmem
      obtain ⟨_, _, _, hrows⟩ := mem_replayedElided.1 (heq ▸ hmem)
      exact hrows row hrow rfl
  · intro hstored
    rw [hwrites.eq_filter, replayedElided]
    congr 1
    apply List.filter_congr
    rintro ⟨operation, i⟩ hx
    rw [Bool.eq_iff_iff]
    simp only [Bool.and_eq_true, Bool.not_eq_true', List.contains_eq_mem, decide_eq_true_eq,
      decide_eq_false_iff_not, List.mem_map]
    constructor
    · rintro ⟨hsqlite, hnone⟩
      by_contra helided
      by_cases hfield : operation.isFieldOperation = true
      · obtain ⟨row, hrow, hindex⟩ := hstored.fields (operation, i) hx hfield
        exact hnone ⟨row, List.mem_map.1 hrow, hindex⟩
      · have hwrite : operation.write?.isSome = true := by
          cases operation <;>
            simp_all [Operation.isFieldOperation, Operation.isSqlite, Operation.write?]
        obtain ⟨y, hy, hindex⟩ := h.revision_at hx hwrite helided
        exact hnone ⟨y.row, ⟨y, hy, rfl⟩, hindex⟩
    · intro hmem
      refine ⟨?_, ?_⟩
      · have hwrite := hwrites.write hx hmem
        cases operation <;> simp_all [Operation.isSqlite, Operation.write?]
      · rintro ⟨_, ⟨y, hy, rfl⟩, rfl⟩
        exact hstored.elided y.row (List.mem_map.2 ⟨y, hy, rfl⟩) hmem

/-- A commit that comes again, whenever it does and to whatever engine that takes its class, changes
no table; it gets the first answer exactly when the rows that are found of it hold one for each of
its field operations and none for its elided ones. -/
theorem resubmission_same_answer_iff (hreach : Reachable opens s)
    (h : applyCommitTransaction e s o = .ok (s₁, r)) (hfresh : r.replayed = false)
    (hlater : Later opens s₁ s₂) (hclass : o.commitClass = .derived → e'.serverExecution = true) :
    (∃ r', applyCommitTransaction e' s₂ o = .ok (s₂, r') ∧ SameAnswer r r') ↔
      StoredWhatItApplied o.commit.operations (s₂.selectCommitRevisions r.seq)
        r.elidedOpIndexes := by
  have hs := hreach.sound
  obtain ⟨sessionKey, hkey, ⟨_, hreplayed⟩ | ⟨a, ha⟩⟩ := applyCommitTransaction_cases hs h
  · rw [hreplayed] at hfresh; cases hfresh
  rw [ha.selectCommitRevisions hs hlater, ← replayedElided_eq_iff ha]
  have htaken : (decide (o.commitClass ≠ .derived) || e'.serverExecution) = true := by
    simpa [or_iff_not_imp_left] using hclass
  have hagain := ha.resubmitted hs hkey htaken hlater
  constructor
  · rintro ⟨r', h', hsame⟩
    rw [hagain] at h'
    cases h'
    exact hsame.elidedOpIndexes
  · intro helided
    refine ⟨_, hagain, rfl, rfl, ?_, rfl, helided⟩
    rw [replayAnswer, rowsOfRevisions, List.map_map]
    exact List.map_id' _

/-- An engine with one codec, whose operations replace a field's text. -/
def fieldEngine : Engine :=
  { bareEngine 0 0 with
    operationCheckpointInterval := 100
    operationCodecs := fun codec => if codec = "text@1" then
      some ⟨fun _ submitted _ => .ok (submitted, [submitted]), fun _ _ => .ok (.record [])⟩ else none
    hashing := { (bareEngine 0 0).hashing with
      operationBaselineHash := fun value => match value with
        | .string text => .append "text:" text
        | _ => "value" } }

/-- A document, with a field of it under collaborative operations. -/
def fieldHistory : List ApplyCommitOptions :=
  [.authored "s" (.ofOperations 1 [.set "of:d" none ⟨[("value", .record [("t", .string "a")])]⟩]),
   .authored "s" (.ofOperations 2 [.applyOp ⟨"of:d", none, ["t"], "text@1", "x", .baseline,
     some "text:a", .string "b"⟩])]

def fieldStore : Store := storeAfter fieldEngine fieldHistory

def releaseField (localSeq : Int) : ApplyCommitOptions :=
  .authored "s" (.ofOperations localSeq [.releaseOpField ⟨"of:d", none, ["t"], "text@1", ⟨1, 1⟩⟩])

theorem fieldStore_reachable : Reachable (fun _ => True) fieldStore :=
  Later.of_applyCommits (e := fieldEngine) trivial fieldHistory (by decide +kernel)

/-- The release of the field, accepted and submitted again. -/
def released : Store × AppliedCommit := applied fieldEngine fieldStore (releaseField 3)

/-- A release is answered as applied, and as elided when it comes again. -/
theorem release_resubmitted :
    Reachable (fun _ => True) fieldStore ∧
    applyCommitTransaction fieldEngine fieldStore (releaseField 3) = .ok released ∧
    released.2.replayed = false ∧ released.2.elidedOpIndexes = [] ∧
    (applied fieldEngine released.1 (releaseField 3)).2.elidedOpIndexes = [0] ∧
    ¬ ∃ r', applyCommitTransaction fieldEngine released.1 (releaseField 3) = .ok (released.1, r') ∧
      SameAnswer released.2 r' := by
  refine ⟨fieldStore_reachable, by decide +kernel, by decide +kernel, by decide +kernel,
    by decide +kernel, ?_⟩
  rintro ⟨r', h, hsame⟩
  have hanswer : applyCommitTransaction fieldEngine released.1 (releaseField 3) =
      .ok (released.1, replayAnswer (releaseField 3) released.2) := by
    decide +kernel
  rw [hanswer] at h
  cases h
  exact absurd hsame.elidedOpIndexes (by decide +kernel)

/-- A patch of the document, submitted again after the field's release. -/
def patchDocument : ApplyCommitOptions :=
  .authored "s" (.ofOperations 3 [.patch "of:d" none [.add "/value/u" .null]])

def documentPatched : Store × AppliedCommit := applied fieldEngine fieldStore patchDocument

def releasedLater : Store := (applied fieldEngine documentPatched.1 (releaseField 4)).1

theorem resubmission_same_answer_iff_patch :
    (∃ r', applyCommitTransaction (bareEngine 0 0) releasedLater patchDocument =
        .ok (releasedLater, r') ∧ SameAnswer documentPatched.2 r') ↔
      StoredWhatItApplied patchDocument.commit.operations
        (releasedLater.selectCommitRevisions documentPatched.2.seq)
        documentPatched.2.elidedOpIndexes := by
  have haccepted : applyCommitTransaction fieldEngine fieldStore patchDocument =
      .ok documentPatched := by decide +kernel
  exact resubmission_same_answer_iff fieldStore_reachable haccepted (by decide +kernel)
    (Later.of_applyCommits (e := fieldEngine) trivial [releaseField 4] (by decide +kernel))
    (fun h => by cases h)

end Commit
