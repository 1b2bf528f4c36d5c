import CommonFabric.ReadSound

/-!
# The effect of a commit transaction

What an accepted commit leaves of a sound store: its own commit row, the rows of the
revisions it reports, its branch's head raised to its seq, and snapshots; and the store
is sound again.
-/

namespace Store

variable {s s' : Store}

variable {c : CommitRow}

theorem insertCommit_ok (h : s.insertCommit c = .ok s') :
    s.selectCommit c.seq = none ∧ s.selectExistingCommit c.sessionId c.localSeq = none ∧
      s' = { s with commits := s.commits ++ [c] } := by
  obtain ⟨hnone, h⟩ := Except.check_ok_iff.1 h
  simp only [require_ok_iff, Bool.and_eq_true, Option.isNone_iff_eq_none] at hnone
  cases h
  exact ⟨hnone.1, hnone.2, rfl⟩

theorem lt_nextSeq (h : c ∈ s.commits) : c.seq < s.nextSeq :=
  Nat.lt_succ_of_le (seq_le_serverSeq h)

theorem RowsSound.row_lt_nextSeq (hs : s.RowsSound) {r : RevisionRow} (hr : r ∈ s.revisions) :
    r.seq < s.nextSeq := Nat.lt_succ_of_le (hs.row_le_serverSeq hr)

theorem RowsSound.snapshot_lt_nextSeq (hs : s.RowsSound) {x : SnapshotRow} (hx : x ∈ s.snapshots) :
    x.seq < s.nextSeq := by
  obtain ⟨r, hr, hseq⟩ := hs.snapshotRow x hx
  exact hseq ▸ hs.row_lt_nextSeq (mem_rowsOf.1 hr).1

theorem RowsSound.insertCommit (hs : s.RowsSound) (hc : c.seq = s.nextSeq)
    (h : s.insertCommit c = .ok s') : s'.RowsSound := by
  obtain ⟨_, hnone, rfl⟩ := insertCommit_ok h
  refine { hs with commitsAscending := ?_, sessions := ?_, rowCommit := ?_ }
  · refine List.pairwise_append.2 ⟨hs.commitsAscending, List.pairwise_singleton _ _, ?_⟩
    intro a ha b hb
    obtain rfl := List.mem_singleton.1 hb
    exact hc ▸ lt_nextSeq ha
  · refine List.pairwise_append.2 ⟨hs.sessions, List.pairwise_singleton _ _, ?_⟩
    rintro a ha b hb ⟨hsession, hlocal⟩
    obtain rfl := List.mem_singleton.1 hb
    have := List.find?_eq_none.1 hnone a ha
    simp [hsession, hlocal] at this
  · intro r hr
    obtain ⟨hcs, d, hd, hrest⟩ := hs.rowCommit r hr
    exact ⟨hcs, d, List.mem_append_left _ hd, hrest⟩

/-- The commits with the resolution of one of them replaced. -/
theorem RowsSound.updateCommitResolution (hs : s.RowsSound) (seq : Nat) (res : CommitResolution) :
    (s.updateCommitResolution seq res).RowsSound := by
  have hfield : ∀ c : CommitRow, (if c.seq = seq then { c with resolution := res } else c).seq = c.seq ∧
      (if c.seq = seq then { c with resolution := res } else c).branch = c.branch ∧
      (if c.seq = seq then { c with resolution := res } else c).sessionId = c.sessionId ∧
      (if c.seq = seq then { c with resolution := res } else c).localSeq = c.localSeq := by
    intro c; split <;> simp
  refine { hs with commitsAscending := ?_, sessions := ?_, rowCommit := ?_ }
  · refine List.pairwise_map.2 (hs.commitsAscending.imp fun {a b} h => ?_)
    rw [(hfield a).1, (hfield b).1]; exact h
  · refine List.pairwise_map.2 (hs.sessions.imp fun {a b} h => ?_)
    rw [(hfield a).2.2.1, (hfield a).2.2.2, (hfield b).2.2.1, (hfield b).2.2.2]; exact h
  · intro r hr
    obtain ⟨hcs, d, hd, hseq, hbranch⟩ := hs.rowCommit r hr
    exact ⟨hcs, _, List.mem_map.2 ⟨d, hd, rfl⟩, by rw [(hfield d).1, hseq],
      by rw [(hfield d).2.1, hbranch]⟩

/-- The rows say nothing of the branches. -/
theorem RowsSound.withBranches (hs : s.RowsSound) (branches : List BranchState) :
    ({ s with branches } : Store).RowsSound := { hs with }

/-- A branch as `updateBranchHead` leaves it. -/
def raised (branch : BranchName) (seq : Nat) (b : BranchState) : BranchState :=
  if b.name = branch then { b with headSeq := if b.headSeq < seq then seq else b.headSeq } else b

theorem raised_spec (branch : BranchName) (seq : Nat) (b : BranchState) :
    (raised branch seq b).name = b.name ∧ (raised branch seq b).parentBranch = b.parentBranch ∧
      (raised branch seq b).forkSeq = b.forkSeq ∧ (raised branch seq b).createdSeq = b.createdSeq ∧
      b.headSeq ≤ (raised branch seq b).headSeq ∧
      (b.name = branch → seq ≤ (raised branch seq b).headSeq) := by
  unfold raised
  by_cases hb : b.name = branch
  · by_cases hlt : b.headSeq < seq
    · simp [hb, hlt]; omega
    · simp [hb, hlt]; omega
  · simp [hb]

theorem updateBranchHead_eq (s : Store) (branch : BranchName) (seq : Nat) :
    s.updateBranchHead branch seq = { s with branches := s.branches.map (raised branch seq) } := rfl

/-- A map over the branches that keeps their names and parents keeps their order. -/
theorem parents_map {f : BranchState → BranchState} (hname : ∀ b, (f b).name = b.name)
    (hparent : ∀ b, (f b).parentBranch = b.parentBranch) (hs : s.BranchesSound) :
    ∀ older b newer, s.branches.map f = older ++ b :: newer → ∀ p, b.parentBranch = some p →
      ∃ b' ∈ older, b'.name = p := by
  intro older b newer hsplit p hp
  obtain ⟨older', rest, hbr, rfl, hrest⟩ := List.map_eq_append_iff.1 hsplit
  obtain ⟨b', newer', rfl, rfl, rfl⟩ := List.map_eq_cons_iff.1 hrest
  rw [hparent] at hp
  obtain ⟨x, hx, hxname⟩ := hs.parents older' b' newer' hbr p hp
  exact ⟨f x, List.mem_map.2 ⟨x, hx, rfl⟩, by rw [hname, hxname]⟩

/-- A new commit on a branch, with the branch's head raised to it. -/
theorem BranchesSound.raise (hs : s.BranchesSound) {branch : BranchName}
    (hc : c.branch = branch) (hbranch : ∃ b ∈ s.branches, b.name = branch)
    (hcommits : ∀ d ∈ s'.commits, (∃ x ∈ s.commits, x.seq = d.seq ∧ x.branch = d.branch) ∨
      (d.seq = c.seq ∧ d.branch = c.branch))
    (hbranches : s'.branches = s.branches.map (raised branch c.seq)) : s'.BranchesSound where
  names := by
    rw [hbranches]
    refine List.pairwise_map.2 (hs.names.imp fun {a b} h => ?_)
    rw [(raised_spec _ _ a).1, (raised_spec _ _ b).1]; exact h
  default := by
    obtain ⟨b, hb, hname, hparent⟩ := hs.default
    refine ⟨raised branch c.seq b, by rw [hbranches]; exact List.mem_map.2 ⟨b, hb, rfl⟩, ?_⟩
    obtain ⟨h₁, h₂, _⟩ := raised_spec branch c.seq b
    rw [h₁, h₂]; exact ⟨hname, hparent⟩
  created := by
    intro b hb
    rw [hbranches] at hb
    obtain ⟨b', hb', rfl⟩ := List.mem_map.1 hb
    obtain ⟨_, _, _, hcreated, hle, _⟩ := raised_spec branch c.seq b'
    have := hs.created b' hb'
    omega
  forks := by
    intro b hb
    rw [hbranches] at hb
    obtain ⟨b', hb', rfl⟩ := List.mem_map.1 hb
    obtain ⟨_, _, hfork, hcreated, _⟩ := raised_spec branch c.seq b'
    rw [hfork, hcreated]
    exact hs.forks b' hb'
  commitHeads := by
    intro d hd
    rw [hbranches]
    rcases hcommits d hd with ⟨x, hx, hseq, hb⟩ | ⟨hseq, hb⟩
    · obtain ⟨b, hmem, hname, hle⟩ := hs.commitHeads x hx
      obtain ⟨h₁, _, _, _, hle', _⟩ := raised_spec branch c.seq b
      exact ⟨_, List.mem_map.2 ⟨b, hmem, rfl⟩, by rw [h₁, hname, hb], by omega⟩
    · obtain ⟨b, hmem, hname⟩ := hbranch
      obtain ⟨h₁, _, _, _, _, hle⟩ := raised_spec branch c.seq b
      exact ⟨_, List.mem_map.2 ⟨b, hmem, rfl⟩, by rw [h₁, hname, hb, hc], by rw [hseq]; exact hle hname⟩
  parents := by
    rw [hbranches]
    exact parents_map (fun b => (raised_spec _ _ b).1) (fun b => (raised_spec _ _ b).2.1) hs

theorem Sound.withSnapshots (hs : s.Sound) {snapshots : List SnapshotRow}
    (h : ∀ x ∈ snapshots, replayRows (s.rowsThrough x.doc x.seq) = .ok (some x.value) ∧
      ∃ r ∈ s.rowsOf x.doc, r.seq = x.seq) :
    ({ s with snapshots } : Store).Sound :=
  { hs with snapshots := fun x hx => (h x hx).1, snapshotRow := fun x hx => (h x hx).2 }

/-- `s'` is `s` but for its snapshots. -/
def SameButSnapshots (s s' : Store) : Prop := { s' with snapshots := s.snapshots } = s

theorem SameButSnapshots.refl (s : Store) : SameButSnapshots s s := rfl

theorem SameButSnapshots.trans {s'' : Store} (h : SameButSnapshots s s')
    (h' : SameButSnapshots s' s'') : SameButSnapshots s s'' := by
  unfold SameButSnapshots at h h' ⊢
  rw [← h, ← h']

end Store

namespace Commit

open Store

variable {e : Engine} {s s' : Store} {o : ApplyCommitOptions} {sessionKey : JsString}
  {a : Admission} {r : AppliedCommit}

theorem compactSnapshots_mem (doc : DocInstance) :
    SameButSnapshots s (compactSnapshots e s doc) ∧
      ∀ x ∈ (compactSnapshots e s doc).snapshots, x ∈ s.snapshots := by
  unfold compactSnapshots
  split
  · exact ⟨.refl s, fun _ h => h⟩
  · exact ⟨rfl, fun x hx => (List.mem_filter.1 hx).1⟩

theorem readStateForScopeKey_ok {cached : CachedDocument} {doc : DocInstance} {scope : CellScope}
    {seq : Option Nat} {state : EntityState}
    (h : s.readStateForScopeKey cached doc scope seq = .ok (some state)) :
    s.readRowForBranch doc seq = .ok (some state.row) ∧
      s.rowDocument cached state.row = .ok state.document := by
  obtain ⟨row, hrow, h⟩ := Except.bind_ok_iff.1 h
  cases row with
  | none => cases h
  | some row =>
    obtain ⟨document, hdoc, h⟩ := Except.bind_ok_iff.1 h
    cases h
    exact ⟨hrow, hdoc⟩

/-- A snapshot is made of the last row of its instance, or not at all. -/
theorem maybeMaterializeSnapshot_sound (hs : s.Sound) {doc : DocInstance}
    (hrows : s.rowsOf doc ≠ []) (h : maybeMaterializeSnapshot e s doc = .ok s') :
    s'.Sound ∧ SameButSnapshots s s' := by
  obtain ⟨current, hread, h⟩ := Except.bind_ok_iff.1 h
  cases current with
  | none => cases h; exact ⟨hs, .refl s⟩
  | some current =>
    obtain ⟨hrow, hdocument⟩ := readStateForScopeKey_ok hread
    dsimp only at h
    split at h
    · cases h; exact ⟨hs, .refl s⟩
    · rename_i document hsome
      split at h
      · cases h; exact ⟨hs, .refl s⟩
      · split at h
        · cases h; exact ⟨hs, .refl s⟩
        · cases h
          obtain ⟨last, hlast⟩ : ∃ x, (s.rowsOf doc).getLast? = some x := by
            rw [← Option.isSome_iff_exists, List.getLast?_isSome]; exact hrows
          have hlastmem := mem_rowsOf.1 (List.mem_of_getLast? hlast)
          obtain ⟨state, hb⟩ : ∃ b, s.selectBranch doc.branch = some b := by
            obtain ⟨_, c, hc, _, hbr⟩ := hs.rowCommit last hlastmem.1
            obtain ⟨b, hmem, hname, _⟩ := hs.commitHeads c hc
            exact ⟨b, by rw [← hlastmem.2, ← hbr, ← hname]
                         exact selectBranch_of_mem hs.toBranchesSound hmem⟩
          rw [readRowForBranch_eq hs hb] at hrow
          simp only [Option.getD_none] at hrow
          rw [if_pos (show _ ∧ _ from hs.head_inRange hb), rowsThrough_head hs hb, hlast] at hrow
          have hcur : current.row = last := by cases hrow; rfl
          have hthrough : (s.rowsThrough doc state.headSeq).getLast? = some current.row := by
            rw [rowsThrough_head hs hb, hlast, hcur]
          obtain ⟨_, hrowdoc, hlastOf, hup⟩ := rowsThrough_last hs.ascending hthrough
          have hval := rowDocument_last hs.toRowsSound (noCache_sound s) hthrough
          rw [hdocument, hsome] at hval
          have hseqrows : s.rowsThrough doc current.row.seq = s.rowsThrough doc state.headSeq := by
            rw [rowsThrough_head hs hb, rowsThrough, List.filter_eq_self]
            intro x hx
            have hx' : x ∈ s.rowsThrough doc state.headSeq := by rw [rowsThrough_head hs hb]; exact hx
            rw [← hup, hrowdoc] at hx'
            simpa using RevisionRow.seq_le_of_position_le (mem_rowsUpTo.1 hx').2
          obtain ⟨hsame, hsub⟩ := compactSnapshots_mem (e := e)
            (s := s.insertSnapshot ⟨doc, current.row.seq, document⟩) doc
          have hinserted : SameButSnapshots s (s.insertSnapshot ⟨doc, current.row.seq, document⟩) :=
            rfl
          refine ⟨?_, hinserted.trans hsame⟩
          have heq : compactSnapshots e (s.insertSnapshot ⟨doc, current.row.seq, document⟩) doc =
              { s with snapshots := (compactSnapshots e
                (s.insertSnapshot ⟨doc, current.row.seq, document⟩) doc).snapshots } := by
            unfold compactSnapshots; split <;> rfl
          rw [heq]
          refine hs.withSnapshots fun x hx => ?_
          rcases List.mem_append.1 (hsub x hx) with hx | hx
          · have hx := (List.mem_filter.1 hx).1
            exact ⟨hs.snapshots x hx, hs.snapshotRow x hx⟩
          · obtain rfl := List.mem_singleton.1 hx
            refine ⟨?_, last, List.mem_of_getLast? hlast, by rw [hcur]⟩
            rw [hseqrows, ← hval]

/-- The instances of the revisions are those of their rows. -/
theorem mem_revisedDocs {revisions : List AppliedRevision} {doc : DocInstance}
    (h : doc ∈ revisedDocs revisions) : ∃ x ∈ revisions, x.row.doc = doc := by
  have hgen : ∀ (l : List AppliedRevision) (docs : List DocInstance),
      doc ∈ l.foldl (fun docs r =>
        if docs.contains r.row.doc then docs else docs ++ [r.row.doc]) docs →
      doc ∈ docs ∨ ∃ x ∈ l, x.row.doc = doc := by
    intro l
    induction l with
    | nil => intro docs h; exact .inl h
    | cons x l ih =>
      intro docs h
      rcases ih _ h with h | ⟨y, hy, hdoc⟩
      · dsimp only at h
        split at h
        · exact .inl h
        · rcases List.mem_append.1 h with h | h
          · exact .inl h
          · exact .inr ⟨x, List.mem_cons_self, (List.mem_singleton.1 h).symm⟩
      · exact .inr ⟨y, List.mem_cons_of_mem _ hy, hdoc⟩
  exact (hgen revisions [] h).resolve_left (by simp)

theorem rowsOf_sameButSnapshots (h : SameButSnapshots s s') (doc : DocInstance) :
    s'.rowsOf doc = s.rowsOf doc := by
  rw [← h]; rfl

theorem materializeSnapshots_sound (hs : s.Sound) {revisions : List AppliedRevision}
    (hrows : ∀ x ∈ revisions, x.row ∈ s.revisions)
    (h : materializeSnapshots e s revisions = .ok s') : s'.Sound ∧ SameButSnapshots s s' := by
  unfold materializeSnapshots at h
  split at h
  · cases h; exact ⟨hs, .refl s⟩
  · refine List.foldlM_invariant (fun t => t.Sound ∧ SameButSnapshots s t) ?_ ⟨hs, .refl s⟩ h
    rintro doc hdoc t t' ⟨ht, hsame⟩ hstep
    obtain ⟨x, hx, rfl⟩ := mem_revisedDocs hdoc
    have hmem : x.row ∈ t.rowsOf x.row.doc := by
      rw [rowsOf_sameButSnapshots hsame]; exact mem_rowsOf.2 ⟨hrows x hx, rfl⟩
    obtain ⟨ht', hsame'⟩ := maybeMaterializeSnapshot_sound ht (List.ne_nil_of_mem hmem) hstep
    exact ⟨ht', hsame.trans hsame'⟩

/-- The commit row an accepted commit leaves. -/
def finalRow (o : ApplyCommitOptions) (sessionKey : JsString) (a : Admission) (seq : Nat)
    (resolutions : List ApplyOpResolution) : CommitRow :=
  { commitRow o sessionKey seq a.reads.resolvedPendingReads with
    resolution := ⟨seq, a.reads.resolvedPendingReads, resolutions⟩ }

/-- The states a commit's writing passes through. -/
theorem writeCommit_ok (h : writeCommit e s o sessionKey a = .ok (s', r)) :
    ∃ st s₂,
      s.selectExistingCommit sessionKey o.commit.localSeq = none ∧
      o.commit.operations.zipIdx.foldlM (writeStep e o a s.nextSeq)
        ⟨{ s with commits := s.commits ++
          [commitRow o sessionKey s.nextSeq a.reads.resolvedPendingReads] }, [], []⟩ = .ok st ∧
      maintainWatermarks (recordResolutions st.store s.nextSeq a.reads.resolvedPendingReads
        st.operationResolutions) o s.nextSeq st.revisions = .ok (s₂, r.revisions) ∧
      materializeSnapshots e (s₂.updateBranchHead o.branch s.nextSeq) r.revisions = .ok s' ∧
      r = ⟨s.nextSeq, o.branch, r.revisions, st.operationResolutions, a.reads.elidedOpIndexes,
        false⟩ := by
  obtain ⟨s₁, hins, h⟩ := Except.bind_ok_iff.1 h
  obtain ⟨_, hnone, rfl⟩ := insertCommit_ok hins
  obtain ⟨st, hsteps, h⟩ := Except.bind_ok_iff.1 h
  obtain ⟨_, h⟩ := Except.check_ok_iff.1 h
  obtain ⟨⟨s₂, revisions⟩, hmaintain, h⟩ := Except.bind_ok_iff.1 h
  obtain ⟨s₃, hsnap, h⟩ := Except.bind_ok_iff.1 h
  cases h
  exact ⟨st, s₂, hnone, hsteps, hmaintain, hsnap, rfl⟩

theorem zipIdx_ascending (operations : List Operation) :
    operations.zipIdx.Pairwise fun x y => x.2 < y.2 := by
  have h : (operations.zipIdx.map (·.2)).Pairwise (· < ·) := by
    rw [List.zipIdx_map_snd]
    exact List.pairwise_lt_range'
  exact List.pairwise_map.1 h

/-- What an accepted commit has done to the store. -/
structure Effect (s s' : Store) (o : ApplyCommitOptions) (sessionKey : JsString)
    (a : Admission) (r : AppliedCommit) : Prop where
  seq : r.seq = s.nextSeq
  branch : r.branch = o.branch
  elided : r.elidedOpIndexes = a.reads.elidedOpIndexes
  replayed : r.replayed = false
  commits : s'.commits =
    s.commits ++ [finalRow o sessionKey a s.nextSeq r.operationResolutions]
  revisions : s'.revisions = s.revisions ++ rowsOfRevisions r.revisions
  ofRow : ∀ x ∈ r.revisions,
    x.row.doc.branch = o.branch ∧ x.row.seq = s.nextSeq ∧ x.row.commitSeq = s.nextSeq
  ascending : IndexAscending r.revisions
  branches : s'.branches = s.branches.map (raised o.branch s.nextSeq)
  schedulerBasis : s'.schedulerBasis = s.schedulerBasis
  outbox : s'.outbox = s.outbox

end Commit

namespace Commit

open Store

variable {e : Engine} {s s' : Store} {o : ApplyCommitOptions} {sessionKey : JsString}
  {a : Admission} {r : AppliedCommit}

theorem recordResolutions_eq (t : Store) (seq : Nat) (resolved : List PendingResolution)
    (resolutions : List ApplyOpResolution) :
    ∃ commits, recordResolutions t seq resolved resolutions = { t with commits } := by
  unfold recordResolutions
  split
  · exact ⟨t.commits, rfl⟩
  · exact ⟨_, rfl⟩

/-- The last commit's resolution gains those of its operations. -/
theorem recordResolutions_commits {t : Store} {older : List CommitRow} {seq : Nat}
    {resolutions : List ApplyOpResolution}
    (hc : t.commits = older ++ [commitRow o sessionKey seq a.reads.resolvedPendingReads])
    (hlt : ∀ c ∈ older, c.seq < seq) :
    (recordResolutions t seq a.reads.resolvedPendingReads resolutions).commits =
      older ++ [finalRow o sessionKey a seq resolutions] := by
  unfold recordResolutions
  split
  · rename_i hnil
    rw [hc, hnil]; rfl
  · have holder : older.map (fun c : CommitRow => if c.seq = seq then
        { c with resolution := ⟨seq, a.reads.resolvedPendingReads, resolutions⟩ } else c) = older := by
      conv_rhs => rw [← List.map_id older]
      apply List.map_congr_left
      intro c hcm
      have := hlt c hcm
      rw [if_neg (by omega)]; rfl
    simp only [updateCommitResolution, hc, List.map_append, holder]
    simp [finalRow, commitRow]

theorem RowsSound.recordResolutions {t : Store} (ht : t.RowsSound) (seq : Nat)
    (resolved : List PendingResolution) (resolutions : List ApplyOpResolution) :
    (Commit.recordResolutions t seq resolved resolutions).RowsSound := by
  unfold Commit.recordResolutions
  split
  · exact ht
  · exact ht.updateCommitResolution _ _

/-- The watermarks of any commit: rows past those of its operations. -/
theorem maintainWatermarks_wrote {t t' : Store} {seq : Nat}
    {revisions revisions' : List AppliedRevision}
    (h : maintainWatermarks t o seq revisions = .ok (t', revisions')) :
    ∃ added, revisions' = revisions ++ added ∧
      Wrote o.branch seq t (rowsOfRevisions added) t' ∧ IndexAscending added ∧
      ∀ x ∈ revisions, ∀ y ∈ added, x.row.opIndex < y.row.opIndex := by
  unfold maintainWatermarks at h
  split at h
  · obtain ⟨added, hrev, hwrote, hasc, hle⟩ := Streams.maintainStreamEventWatermarks_wrote h
    refine ⟨added, hrev, hwrote, hasc, fun x hx y hy => ?_⟩
    exact lt_of_lt_of_le (Streams.le_nextSyntheticOpIndex hx) (hle y hy)
  · cases h
    exact ⟨[], by simp, .refl, by simp [IndexAscending], by simp⟩

/-- The commit row stands before any of its revisions. -/
theorem commitRow_rowsSound (hs : s.RowsSound)
    (hnone : s.selectExistingCommit sessionKey o.commit.localSeq = none)
    (resolved : List PendingResolution) :
    ({ s with commits := s.commits ++ [commitRow o sessionKey s.nextSeq resolved] } :
      Store).RowsSound := by
  have hselect : s.selectCommit (commitRow o sessionKey s.nextSeq resolved).seq = none := by
    cases hc : s.selectCommit (commitRow o sessionKey s.nextSeq resolved).seq with
    | none => rfl
    | some c =>
      obtain ⟨hmem, hseq⟩ := selectCommit_mem hc
      have hlt := lt_nextSeq hmem
      have hrow : (commitRow o sessionKey s.nextSeq resolved).seq = s.nextSeq := rfl
      omega
  have hsession : s.selectExistingCommit (commitRow o sessionKey s.nextSeq resolved).sessionId
      (commitRow o sessionKey s.nextSeq resolved).localSeq = none := hnone
  have hinsert : s.insertCommit (commitRow o sessionKey s.nextSeq resolved) = .ok
      { s with commits := s.commits ++ [commitRow o sessionKey s.nextSeq resolved] } := by
    simp [insertCommit, hselect, hsession, require]
  exact hs.insertCommit rfl hinsert

/-- Wherever in its operations a commit is, its rows are sound. -/
theorem writeSteps_rowsSound (hs : s.Sound) {resolved : List PendingResolution}
    (hnone : s.selectExistingCommit sessionKey o.commit.localSeq = none)
    {steps : List (Operation × Nat)} {st : WriteState}
    (h : steps.foldlM (writeStep e o a s.nextSeq) ⟨{ s with commits := s.commits ++
      [commitRow o sessionKey s.nextSeq resolved] }, [], []⟩ = .ok st)
    (hsteps : steps.Pairwise fun x y => x.2 ≤ y.2) : st.store.RowsSound := by
  obtain ⟨added, _, hwrote, hasc, _⟩ := writeSteps_wrote h hsteps
  apply @RowsSound.wrote (commitRow o sessionKey s.nextSeq resolved) o.branch _ _ added
    (commitRow_rowsSound hs.toRowsSound hnone resolved)
    (List.mem_append_right _ (List.mem_singleton_self _)) rfl _
    (fun x hx => hs.snapshot_lt_nextSeq hx) hasc hwrote
  intro x hx y hy
  have hyseq := (hwrote.of_row (List.mem_map.2 ⟨y, hy, rfl⟩)).2.1
  exact RevisionRow.position_le_iff.2 (.inl (by rw [hyseq]; exact hs.row_lt_nextSeq hx))

/-- A fresh commit's effect, and the soundness of what it leaves. -/
theorem writeCommit_effect (hs : s.Sound) (hbranch : ∃ b ∈ s.branches, b.name = o.branch)
    (h : writeCommit e s o sessionKey a = .ok (s', r)) :
    Effect s s' o sessionKey a r ∧ s'.Sound := by
  obtain ⟨st, s₂, hnone, hsteps, hmaintain, hsnap, hr⟩ := writeCommit_ok h
  generalize hrow : commitRow o sessionKey s.nextSeq a.reads.resolvedPendingReads = row at hsteps
  have hrowseq : row.seq = s.nextSeq := by rw [← hrow]; rfl
  have hrowbranch : row.branch = o.branch := by rw [← hrow]; rfl
  have h₂ : st.store.RowsSound := by
    apply writeSteps_rowsSound hs hnone (by rw [hrow]; exact hsteps)
      ((zipIdx_ascending _).imp le_of_lt)
  obtain ⟨added, hadded, hwrote, hasc, _⟩ := writeSteps_wrote hsteps
    ((zipIdx_ascending _).imp le_of_lt)
  rw [List.nil_append] at hadded
  rw [← hrowseq] at hwrote
  have hsnapold : ∀ x ∈ s.snapshots, x.seq < row.seq := fun x hx => by
    rw [hrowseq]; exact hs.snapshot_lt_nextSeq hx
  have h₃ := RowsSound.recordResolutions h₂ s.nextSeq a.reads.resolvedPendingReads
    st.operationResolutions
  obtain ⟨commits₃, hcommits₃⟩ := recordResolutions_eq st.store s.nextSeq
    a.reads.resolvedPendingReads st.operationResolutions
  have hcommits : (recordResolutions st.store s.nextSeq a.reads.resolvedPendingReads
      st.operationResolutions).commits =
      s.commits ++ [finalRow o sessionKey a s.nextSeq st.operationResolutions] := by
    refine recordResolutions_commits ?_ fun c hc => lt_nextSeq hc
    rw [hwrote.commits, hrow]
  generalize hs₃ : recordResolutions st.store s.nextSeq a.reads.resolvedPendingReads
    st.operationResolutions = s₃ at hmaintain h₃ hcommits hcommits₃
  obtain ⟨added', hadded', hwrote', hasc', hlt⟩ := maintainWatermarks_wrote hmaintain
  have hrev₃ : s₃.revisions = s.revisions ++ rowsOfRevisions added := by
    rw [hcommits₃]; exact hwrote.revisions
  have h₄ : s₂.RowsSound := by
    have hfinal : (finalRow o sessionKey a s.nextSeq st.operationResolutions).seq = s.nextSeq := rfl
    refine h₃.wrote (c := finalRow o sessionKey a s.nextSeq st.operationResolutions)
      (by rw [hcommits]; simp) rfl ?_ ?_ hasc' (by rw [hfinal]; exact hwrote')
    · intro x hx y hy
      have hyseq := (hwrote'.of_row (List.mem_map.2 ⟨y, hy, rfl⟩)).2.1
      rw [hrev₃] at hx
      rcases List.mem_append.1 hx with hx | hx
      · exact RevisionRow.position_le_iff.2 (.inl (by rw [hyseq]; exact hs.row_lt_nextSeq hx))
      · obtain ⟨z, hz, rfl⟩ := List.mem_map.1 hx
        have hzseq := (hwrote.of_row (List.mem_map.2 ⟨z, hz, rfl⟩)).2.1
        refine RevisionRow.position_le_iff.2 (.inr ⟨by rw [hzseq, hyseq, hrowseq], ?_⟩)
        exact le_of_lt (hlt z (by rw [hadded]; exact hz) y hy)
    · intro x hx
      rw [hfinal, ← hrowseq]
      refine hsnapold x ?_
      rw [hcommits₃] at hx
      rw [← hwrote.snapshots]; exact hx
  have hbranches₂ : s₂.branches = s.branches := by
    rw [hwrote'.branches, hcommits₃]; exact hwrote.branches
  have h₅ : (s₂.updateBranchHead o.branch s.nextSeq).Sound := by
    have hbr : (s₂.updateBranchHead o.branch s.nextSeq).BranchesSound := by
      refine BranchesSound.raise (s := s) (c := row) hs.toBranchesSound hrowbranch hbranch ?_ ?_
      · intro d hd
        have hd' : d ∈ s₃.commits := by rw [← hwrote'.commits]; exact hd
        rw [hcommits] at hd'
        rcases List.mem_append.1 hd' with hd' | hd'
        · exact .inl ⟨d, hd', rfl, rfl⟩
        · obtain rfl := List.mem_singleton.1 hd'
          exact .inr ⟨hrowseq.symm, hrowbranch.symm⟩
      · rw [updateBranchHead_eq, hbranches₂, hrowseq]
    exact { h₄.withBranches _, hbr with }
  have hrevs : r.revisions = added ++ added' := by rw [hadded', hadded]
  have hrev₂ : s₂.revisions = s.revisions ++ rowsOfRevisions r.revisions := by
    rw [hwrote'.revisions, hrev₃, hrevs]; simp [rowsOfRevisions]
  obtain ⟨hsound, hsame⟩ := materializeSnapshots_sound h₅
    (fun x hx => by
      rw [updateBranchHead_eq, hrev₂]
      exact List.mem_append_right _ (List.mem_map.2 ⟨x, hx, rfl⟩)) hsnap
  have hview : ∀ {γ : Type} (view : Store → γ), (∀ t x, view { t with snapshots := x } = view t) →
      view s' = view (s₂.updateBranchHead o.branch s.nextSeq) := fun view hv =>
    (hv s' _).symm.trans (congrArg view hsame)
  refine ⟨?_, hsound⟩
  exact {
    seq := congrArg AppliedCommit.seq hr
    branch := congrArg AppliedCommit.branch hr
    elided := congrArg AppliedCommit.elidedOpIndexes hr
    replayed := congrArg AppliedCommit.replayed hr
    commits := by
      rw [hview (·.commits) fun _ _ => rfl, updateBranchHead_eq]
      change s₂.commits = _
      rw [hwrote'.commits, hcommits, congrArg AppliedCommit.operationResolutions hr]
    revisions := by
      rw [hview (·.revisions) fun _ _ => rfl, updateBranchHead_eq]
      exact hrev₂
    ofRow := by
      intro x hx
      rw [hrevs] at hx
      rcases List.mem_append.1 hx with hx | hx
      · have := hwrote.of_row (List.mem_map.2 ⟨x, hx, rfl⟩)
        rw [hrowseq] at this; exact this
      · exact hwrote'.of_row (List.mem_map.2 ⟨x, hx, rfl⟩)
    ascending := by
      rw [hrevs]
      refine List.pairwise_append.2 ⟨hasc, hasc', fun x hx y hy => ?_⟩
      exact le_of_lt (hlt x (by rw [hadded]; exact hx) y hy)
    branches := by
      rw [hview (·.branches) fun _ _ => rfl, updateBranchHead_eq, hbranches₂]
    schedulerBasis := by
      rw [hview (·.schedulerBasis) fun _ _ => rfl, updateBranchHead_eq]
      change s₂.schedulerBasis = _
      rw [hwrote'.schedulerBasis, hcommits₃]; exact hwrote.schedulerBasis
    outbox := by
      rw [hview (·.outbox) fun _ _ => rfl, updateBranchHead_eq]
      change s₂.outbox = _
      rw [hwrote'.outbox, hcommits₃]; exact hwrote.outbox }

end Commit
