import CommonFabric.Store

/-!
# Reconstruction is a replay

Whichever base a reconstruction starts from (the newest `set` or `delete`, a
snapshot, or a revision the cache holds), it returns the replay of the
instance's rows up to the row it was asked for, from the absent document.
-/

/-- The fold of rows in order, from the absent document. -/
def replayRows (rows : List RevisionRow) : Except EngineError (Option EntityDocument) :=
  ReplayLog.replay applyRevision (.ok none) (rows.map (·.data.entry))

namespace RevisionRow

theorem position_lt_iff {a b : RevisionRow} :
    a.position < b.position ↔ a.seq < b.seq ∨ a.seq = b.seq ∧ a.opIndex < b.opIndex :=
  Prod.Lex.toLex_lt_toLex

theorem position_le_iff {a b : RevisionRow} :
    a.position ≤ b.position ↔ a.seq < b.seq ∨ a.seq = b.seq ∧ a.opIndex ≤ b.opIndex :=
  Prod.Lex.toLex_le_toLex

theorem seq_le_of_position_le {a b : RevisionRow} (h : a.position ≤ b.position) :
    a.seq ≤ b.seq := by
  rcases position_le_iff.1 h with h | h <;> omega

end RevisionRow

open RevisionRow

theorem replayRows_concat (rows : List RevisionRow) (row : RevisionRow) :
    replayRows (rows ++ [row]) = ReplayLog.step applyRevision (replayRows rows) row.data.entry := by
  simp [replayRows, ReplayLog.replay_append, ReplayLog.replay_cons]

theorem replayRows_concat_set (rows : List RevisionRow) (row : RevisionRow) {d : EntityDocument}
    (h : row.data = .set d) : replayRows (rows ++ [row]) = .ok (some d) := by
  rw [replayRows_concat, h]; rfl

theorem replayRows_concat_delete (rows : List RevisionRow) (row : RevisionRow)
    (h : row.data = .delete) : replayRows (rows ++ [row]) = .ok none := by
  rw [replayRows_concat, h]; rfl

theorem applyRevision_getD (d : Option EntityDocument) (ps : List PatchOp) :
    applyRevision d ps = applyRevision (some (d.getD emptyEntityDocument)) ps := by
  cases d <;> rfl

theorem foldlM_applyRevision (rows : List RevisionRow) :
    ∀ d : EntityDocument,
      rows.foldlM (fun d row => applyRevision d (storedPatchList row)) (some d) =
        some <$> replayPatches d rows := by
  induction rows with
  | nil => intro d; rfl
  | cons row rows ih =>
    intro d
    rw [replayPatches, List.foldlM_cons, List.foldlM_cons, applyRevision]
    cases h : liftPatch (applyPatchToDocument (some d) (storedPatchList row)) with
    | ok d' => exact ih d'
    | error e => rfl

theorem map_entry_of_patches {rows : List RevisionRow} (h : ∀ r ∈ rows, r.data.isPatch = true) :
    rows.map (·.data.entry) = (rows.map storedPatchList).map LogEntry.change := by
  rw [List.map_map]
  apply List.map_congr_left
  intro r hr
  have := h r hr
  cases hd : r.data <;> simp_all [RevisionData.isPatch, RevisionData.entry, storedPatchList]

/-- Patches replayed after a prefix whose document is known. -/
theorem replayRows_append_patches {older rows : List RevisionRow} {d : Option EntityDocument}
    (hd : replayRows older = .ok d) (h : ∀ r ∈ rows, r.data.isPatch = true)
    (hne : d.isSome ∨ rows ≠ []) :
    replayRows (older ++ rows) = some <$> replayPatches (d.getD emptyEntityDocument) rows := by
  have hfold : replayRows (older ++ rows) =
      rows.foldlM (fun d row => applyRevision d (storedPatchList row)) d := by
    rw [replayRows, List.map_append, ReplayLog.replay_append, ← replayRows, hd,
      map_entry_of_patches h, ReplayLog.replay_changes, List.foldlM_map]
  rw [hfold, ← foldlM_applyRevision]
  cases d with
  | some d => rfl
  | none => cases rows with
    | nil => simp at hne
    | cons row rows =>
      rw [List.foldlM_cons, List.foldlM_cons, applyRevision_getD]

namespace Store

def rowsUpTo (s : Store) (doc : DocInstance) (p : ℕ ×ₗ ℕ) : List RevisionRow :=
  (s.rowsOf doc).filter (·.position ≤ p)

def rowsThrough (s : Store) (doc : DocInstance) (seq : Nat) : List RevisionRow :=
  (s.rowsOf doc).filter (·.seq ≤ seq)

/-- The rows of every instance were inserted in their order. -/
def RowsAscending (s : Store) : Prop :=
  ∀ doc, Query.Ascending RevisionRow.position (s.rowsOf doc)

/-- A snapshot holds the replay of the rows up to its seq. -/
def SnapshotsSound (s : Store) : Prop :=
  ∀ snapshot ∈ s.snapshots,
    replayRows (s.rowsThrough snapshot.doc snapshot.seq) = .ok (some snapshot.value)

/-- What the cache holds for a row is the replay of the rows up to it. -/
def CacheSound (s : Store) (cached : CachedDocument) : Prop :=
  ∀ row ∈ s.revisions, ∀ d, cached row = some d →
    replayRows (s.rowsUpTo row.doc row.position) = .ok d

theorem noCache_sound (s : Store) : s.CacheSound noCache := by
  intro row _ d h; cases h

theorem mem_rowsOf {s : Store} {doc : DocInstance} {r : RevisionRow} :
    r ∈ s.rowsOf doc ↔ r ∈ s.revisions ∧ r.doc = doc := by
  simp [rowsOf]

theorem mem_rowsUpTo {s : Store} {doc : DocInstance} {p : ℕ ×ₗ ℕ} {r : RevisionRow} :
    r ∈ s.rowsUpTo doc p ↔ r ∈ s.rowsOf doc ∧ r.position ≤ p := by
  simp [rowsUpTo]

theorem isAfter_mono {seq : Nat} {b : OpIndexBound} {x y : RevisionRow}
    (h : x.position < y.position) (hx : isAfter seq b x = true) : isAfter seq b y = true := by
  simp only [isAfter, Bool.or_eq_true, Bool.and_eq_true, decide_eq_true_eq] at hx ⊢
  rcases position_lt_iff.1 h with h | ⟨hs, hi⟩
  · rcases hx with hx | hx <;> exact Or.inl (by omega)
  · rcases hx with hx | ⟨hx, hb⟩
    · exact Or.inl (by omega)
    · refine Or.inr ⟨by omega, ?_⟩
      cases b <;> simp_all [OpIndexBound.below]
      omega

theorem isAfter_stop {seq : Nat} {r : RevisionRow} :
    isAfter seq .stop r = decide (seq < r.seq) := by
  simp [isAfter, OpIndexBound.below]

theorem isAfter_start {r : RevisionRow} : isAfter 0 .start r = true := by
  simp only [isAfter, OpIndexBound.below, Bool.and_true, Bool.or_eq_true, decide_eq_true_eq]
  omega

theorem isAfter_index {row r : RevisionRow} :
    isAfter row.seq (.index row.opIndex) r = decide (row.position < r.position) := by
  rw [Bool.eq_iff_iff]
  simp only [isAfter, OpIndexBound.below, position_lt_iff, Bool.or_eq_true, Bool.and_eq_true,
    decide_eq_true_eq]
  constructor <;> rintro (h | ⟨h, h'⟩)
  · exact Or.inl h
  · exact Or.inr ⟨h.symm, h'⟩
  · exact Or.inl h
  · exact Or.inr ⟨h.symm, h'⟩

theorem isUpTo_index {row r : RevisionRow} :
    isUpTo row.seq (.index row.opIndex) r = decide (r.position ≤ row.position) := by
  rw [isUpTo, isAfter_index, Bool.eq_iff_iff]
  simp

section Start

variable {s : Store} {cached : CachedDocument} {row : RevisionRow} {exact : Bool}

/-- The rows up to `row` that a reconstruction starting at `b` does not replay. -/
def skipped (s : Store) (row : RevisionRow) (b : BaseAndSnapshot) : List RevisionRow :=
  (s.rowsUpTo row.doc row.position).filter fun r => !isAfter b.start.1 b.start.2 r

/-- The rows up to `row` that it does. -/
def replayed (s : Store) (row : RevisionRow) (b : BaseAndSnapshot) : List RevisionRow :=
  (s.rowsUpTo row.doc row.position).filter (isAfter b.start.1 b.start.2)

theorem skipped_append_replayed (hasc : s.RowsAscending) (b : BaseAndSnapshot) :
    s.skipped row b ++ s.replayed row b = s.rowsUpTo row.doc row.position :=
  Query.filter_not_append_filter ((hasc row.doc).filter _) _ fun _ _ => isAfter_mono

/-- A base row is one of the rows up to `row`, is no patch, and no later row that is
no patch is at or after the floor. -/
theorem latestBase_spec {floor : Nat} {base : RevisionRow}
    (h : s.selectLatestBase row.doc row.seq (.index row.opIndex) floor = some base) :
    base ∈ s.rowsOf row.doc ∧ base.data.isPatch = false ∧ floor ≤ base.seq ∧
      base.position ≤ row.position := by
  have := List.mem_filter.1 (Query.newest_mem h)
  rw [isUpTo_index] at this
  simpa [and_assoc] using this

theorem le_latestBase {floor : Nat} {base r : RevisionRow}
    (h : s.selectLatestBase row.doc row.seq (.index row.opIndex) floor = some base)
    (hr : r ∈ s.rowsUpTo row.doc row.position) (hp : r.data.isPatch = false)
    (hf : floor ≤ r.seq) : r.position ≤ base.position := by
  obtain ⟨hmem, hle⟩ := mem_rowsUpTo.1 hr
  refine Query.le_newest h (List.mem_filter.2 ⟨hmem, ?_⟩)
  rw [isUpTo_index]
  simp [hp, hf, hle]

theorem not_below_floor_of_no_base {floor : Nat} {r : RevisionRow}
    (h : s.selectLatestBase row.doc row.seq (.index row.opIndex) floor = none)
    (hr : r ∈ s.rowsUpTo row.doc row.position) (hp : r.data.isPatch = false) :
    r.seq < floor := by
  obtain ⟨hmem, hle⟩ := mem_rowsUpTo.1 hr
  by_contra hf
  have hnil := Query.newest_eq_none_iff.1 h
  refine List.not_mem_nil (a := r) (hnil ▸ List.mem_filter.2 ⟨hmem, ?_⟩)
  rw [isUpTo_index]
  simp [hp, not_lt.1 hf, hle]

theorem latestSnapshot_spec {snapshot : SnapshotRow}
    (h : (s.latestBaseAndSnapshot row.doc row.seq (.index row.opIndex) exact).snapshotRow =
      some snapshot) :
    snapshot ∈ s.snapshots ∧ snapshot.doc = row.doc ∧ snapshot.seq ≤ row.seq ∧
      (exact = true → snapshot.seq < row.seq) := by
  unfold latestBaseAndSnapshot at h
  cases exact with
  | true =>
    have := List.mem_filter.1 (Query.newest_mem (show Query.newest _ _ = _ from h))
    simp only [snapshotsOf, List.mem_filter, decide_eq_true_eq] at this
    exact ⟨this.1.1, this.1.2, by omega, fun _ => this.2⟩
  | false =>
    have := List.mem_filter.1 (Query.newest_mem (show Query.newest _ _ = _ from h))
    simp only [snapshotsOf, List.mem_filter, decide_eq_true_eq] at this
    exact ⟨this.1.1, this.1.2, this.2, by simp⟩

/-- A reconstruction replays patches only: a later `set` or `delete` would have
been its base. -/
theorem replayed_isPatch {r : RevisionRow}
    (hr : r ∈ s.replayed row
      (s.latestBaseAndSnapshot row.doc row.seq (.index row.opIndex) exact)) :
    r.data.isPatch = true := by
  obtain ⟨hup, hafter⟩ := List.mem_filter.1 hr
  by_contra hp
  rw [Bool.not_eq_true] at hp
  generalize hb : s.latestBaseAndSnapshot row.doc row.seq (.index row.opIndex) exact = b at hafter
  obtain ⟨baseRow, snapshotRow⟩ := b
  have hbase : s.selectLatestBase row.doc row.seq (.index row.opIndex)
      ((snapshotRow.map (·.seq)).getD 0) = baseRow := by
    have h1 := congrArg BaseAndSnapshot.baseRow hb
    have h2 := congrArg BaseAndSnapshot.snapshotRow hb
    simp only [latestBaseAndSnapshot] at h1 h2
    rw [← h2]; exact h1
  cases baseRow with
  | none =>
    have hlt := not_below_floor_of_no_base hbase hup hp
    cases snapshotRow with
    | none => simp at hlt
    | some snapshot =>
      simp only [BaseAndSnapshot.start, isAfter_stop, decide_eq_true_eq, Option.map_some,
        Option.getD_some] at hafter hlt
      omega
  | some base =>
    have hspec := latestBase_spec hbase
    have hle : (snapshotRow.map (·.seq)).getD 0 ≤ r.seq → r.position ≤ base.position :=
      le_latestBase hbase hup hp
    have hbaseWins : isAfter base.seq (.index base.opIndex) r = true → False := by
      intro h
      rw [isAfter_index, decide_eq_true_eq] at h
      have hseq := seq_le_of_position_le (le_of_lt h)
      exact absurd (hle (by omega)) (not_le.2 h)
    cases snapshotRow with
    | none => exact hbaseWins hafter
    | some snapshot =>
      simp only [BaseAndSnapshot.start] at hafter
      split at hafter
      · rw [isAfter_stop, decide_eq_true_eq] at hafter
        have hpos := hle (by simpa using le_of_lt hafter)
        have := seq_le_of_position_le hpos
        omega
      · exact hbaseWins hafter

/-- The rows up to `row` within a seq are the instance's rows through that seq, if
`row` is past the seq or the last row at it. -/
theorem filter_rowsUpTo_le {seq : Nat}
    (hlast : seq < row.seq ∨
      seq = row.seq ∧ ∀ r ∈ s.rowsOf row.doc, r.seq = row.seq → r.position ≤ row.position) :
    (s.rowsUpTo row.doc row.position).filter (fun r => decide (r.seq ≤ seq)) =
      s.rowsThrough row.doc seq := by
  rw [rowsUpTo, rowsThrough, List.filter_filter]
  apply List.filter_congr
  intro r hr
  rw [Bool.eq_iff_iff]
  simp only [Bool.and_eq_true, decide_eq_true_eq, and_iff_left_iff_imp]
  intro hle
  rcases hlast with h | ⟨h, hl⟩
  · exact position_le_iff.2 (Or.inl (by omega))
  · by_cases he : r.seq = row.seq
    · exact hl r hr he
    · exact position_le_iff.2 (Or.inl (by omega))

theorem cachedSnapshottedRevision_eq (hcache : s.CacheSound cached)
    {doc : DocInstance} {seq : Nat} {value d : EntityDocument}
    (hvalue : replayRows (s.rowsThrough doc seq) = .ok (some value))
    (h : s.cachedSnapshottedRevision cached doc seq = some d) : d = value := by
  unfold cachedSnapshottedRevision at h
  cases hrow : s.selectAtSeqLocal doc seq with
  | none => rw [hrow] at h; cases h
  | some r =>
    rw [hrow] at h
    dsimp only at h
    split at h
    · rename_i hseq
      have hmem := List.mem_filter.1 (Query.newest_mem hrow)
      obtain ⟨hrev, hdoc⟩ := mem_rowsOf.1 hmem.1
      have hc : cached r = some (some d) := by
        cases hcr : cached r with
        | none => simp [hcr] at h
        | some x => rw [hcr, Option.join_some] at h; rw [h]
      have hrep := hcache r hrev _ hc
      have hall : s.rowsUpTo r.doc r.position = s.rowsThrough doc seq := by
        rw [rowsUpTo, rowsThrough, hdoc]
        apply List.filter_congr
        intro x hx
        rw [Bool.eq_iff_iff, decide_eq_true_eq, decide_eq_true_eq]
        constructor
        · intro hle; have := seq_le_of_position_le hle; omega
        · intro hle
          exact Query.le_newest hrow (List.mem_filter.2 ⟨hx, by simpa using hle⟩)
      rw [hall, hvalue] at hrep
      cases hrep; rfl
    · cases h

/-- The rows a reconstruction skips replay to the document it starts from. -/
theorem replay_skipped (hasc : s.RowsAscending) (hsnap : s.SnapshotsSound)
    (hcache : s.CacheSound cached) (hpatch : row.data.isPatch = true)
    (hexact : exact = true ∨ ∀ r ∈ s.rowsOf row.doc, r.seq = row.seq → r.position ≤ row.position) :
    let b := s.latestBaseAndSnapshot row.doc row.seq (.index row.opIndex) exact
    ∃ d, replayRows (s.skipped row b) = .ok d ∧
      s.baseDocument cached row.doc b = d.getD emptyEntityDocument ∧
      (d.isSome ∨ row ∉ s.skipped row b) := by
  generalize hb : s.latestBaseAndSnapshot row.doc row.seq (.index row.opIndex) exact = b
  obtain ⟨baseRow, snapshotRow⟩ := b
  have hsnapshot : ∀ snapshot, snapshotRow = some snapshot →
      replayRows (s.rowsThrough row.doc snapshot.seq) = .ok (some snapshot.value) ∧
      (s.rowsUpTo row.doc row.position).filter (fun r => decide (r.seq ≤ snapshot.seq)) =
        s.rowsThrough row.doc snapshot.seq := by
    intro snapshot h
    have hlatest : (s.latestBaseAndSnapshot row.doc row.seq (.index row.opIndex) exact).snapshotRow =
        some snapshot := by
      rw [← h]; exact congrArg BaseAndSnapshot.snapshotRow hb
    obtain ⟨hmem, hdoc, hle, hlt⟩ := latestSnapshot_spec hlatest
    refine ⟨hdoc ▸ hsnap snapshot hmem, filter_rowsUpTo_le ?_⟩
    rcases hexact with he | hl
    · exact Or.inl (hlt he)
    · rcases Nat.lt_or_ge snapshot.seq row.seq with h | h
      · exact Or.inl h
      · exact Or.inr ⟨by omega, hl⟩
  have hfromSnapshot : ∀ snapshot, snapshotRow = some snapshot →
      (BaseAndSnapshot.mk baseRow snapshotRow).start = (snapshot.seq, .stop) →
      ∃ d, replayRows (s.skipped row ⟨baseRow, snapshotRow⟩) = .ok d ∧
        s.baseDocument cached row.doc ⟨baseRow, snapshotRow⟩ = d.getD emptyEntityDocument ∧
        (d.isSome ∨ row ∉ s.skipped row ⟨baseRow, snapshotRow⟩) := by
    intro snapshot h hstart
    obtain ⟨hval, hrows⟩ := hsnapshot snapshot h
    refine ⟨some snapshot.value, ?_, ?_, Or.inl rfl⟩
    · have : s.skipped row ⟨baseRow, snapshotRow⟩ = s.rowsThrough row.doc snapshot.seq := by
        rw [← hrows, skipped]
        apply List.filter_congr
        intro r _
        rw [hstart, isAfter_stop, Bool.eq_iff_iff]
        simp
      rw [this, hval]
    · subst h
      simp only [baseDocument, hstart, if_true, Option.getD_some]
      cases hc : s.cachedSnapshottedRevision cached row.doc snapshot.seq with
      | none => rfl
      | some d => exact cachedSnapshottedRevision_eq hcache hval hc
  have hfromBase : ∀ base, baseRow = some base →
      (BaseAndSnapshot.mk baseRow snapshotRow).start = (base.seq, .index base.opIndex) →
      (∀ snapshot, snapshotRow = some snapshot → snapshot.seq ≠ base.seq) →
      ∃ d, replayRows (s.skipped row ⟨baseRow, snapshotRow⟩) = .ok d ∧
        s.baseDocument cached row.doc ⟨baseRow, snapshotRow⟩ = d.getD emptyEntityDocument ∧
        (d.isSome ∨ row ∉ s.skipped row ⟨baseRow, snapshotRow⟩) := by
    intro base h hstart hne
    have hbase : s.selectLatestBase row.doc row.seq (.index row.opIndex)
        ((snapshotRow.map (·.seq)).getD 0) = some base := by
      have h1 := congrArg BaseAndSnapshot.baseRow hb
      have h2 := congrArg BaseAndSnapshot.snapshotRow hb
      simp only [latestBaseAndSnapshot] at h1 h2
      rw [← h2, ← h]; exact h1
    obtain ⟨hmem, hp, _, hle⟩ := latestBase_spec hbase
    obtain ⟨older, holder, hlt⟩ := Query.filter_le_eq_concat (hasc row.doc) hmem
    have hskip : s.skipped row ⟨baseRow, snapshotRow⟩ = older ++ [base] := by
      rw [← holder, skipped, hstart, rowsUpTo, List.filter_filter]
      apply List.filter_congr
      intro r _
      rw [isAfter_index, Bool.eq_iff_iff]
      simp only [Bool.and_eq_true, Bool.not_eq_true', decide_eq_false_iff_not, not_lt,
        decide_eq_true_eq, and_iff_left_iff_imp]
      exact fun h => h.trans hle
    have hdoc : s.baseDocument cached row.doc ⟨baseRow, snapshotRow⟩ =
        baseDocument.fromBaseRow cached (some base) := by
      subst h
      cases snapshotRow with
      | none => rfl
      | some snapshot => simp [baseDocument, hstart, hne snapshot rfl]
    have hrep : s.rowsUpTo base.doc base.position = older ++ [base] := by
      rw [rowsUpTo, (mem_rowsOf.1 hmem).2]; exact holder
    rw [hskip, hdoc]
    cases hd : base.data with
    | patch ps => rw [hd] at hp; cases hp
    | delete =>
      refine ⟨none, replayRows_concat_delete _ _ hd, by simp [baseDocument.fromBaseRow, hd],
        Or.inr fun hin => ?_⟩
      rcases List.mem_append.1 hin with ho | hb
      · exact absurd (hlt row ho) (not_lt.2 hle)
      · rw [List.mem_singleton.1 hb, hd] at hpatch; cases hpatch
    | set d =>
      refine ⟨some d, replayRows_concat_set _ _ hd, ?_, Or.inl rfl⟩
      simp only [baseDocument.fromBaseRow, hd, Option.getD_some]
      cases hc : cached base with
      | none => rfl
      | some x =>
        have := hcache base (mem_rowsOf.1 hmem).1 x hc
        rw [hrep, replayRows_concat_set _ _ hd] at this
        cases this; rfl
  cases snapshotRow with
  | some snapshot =>
    cases baseRow with
    | none => exact hfromSnapshot snapshot rfl rfl
    | some base =>
      by_cases hle : base.seq ≤ snapshot.seq
      · exact hfromSnapshot snapshot rfl (by simp [BaseAndSnapshot.start, hle])
      · refine hfromBase base rfl (by simp [BaseAndSnapshot.start, hle]) ?_
        rintro _ ⟨⟩; omega
  | none =>
    cases baseRow with
    | some base => exact hfromBase base rfl rfl (by simp)
    | none =>
      have hnil : s.skipped row ⟨none, none⟩ = [] := by
        rw [skipped, List.filter_eq_nil_iff]
        intro r _
        simp [BaseAndSnapshot.start, isAfter_start]
      exact ⟨none, by rw [hnil]; rfl, rfl, Or.inr (by rw [hnil]; exact List.not_mem_nil)⟩

/-- A resumed revision divides the replayed rows at a row the cache holds. -/
theorem resumePoint_spec {rows rest : List RevisionRow} {d : EntityDocument}
    (h : resumePoint cached rows = some (d, rest)) :
    ∃ older r, rows = older ++ r :: rest ∧ cached r = some (some d) := by
  induction rows with
  | nil => cases h
  | cons r rows ih =>
    simp only [resumePoint] at h
    split at h
    · rename_i found hfound
      cases h
      obtain ⟨older, r', hrows, hr'⟩ := ih hfound
      exact ⟨r :: older, r', by rw [hrows]; rfl, hr'⟩
    · split at h
      · rename_i document hc
        cases h
        exact ⟨[], r, rfl, hc⟩
      · cases h

theorem selectPatches_eq (hasc : s.RowsAscending) (b : BaseAndSnapshot)
    (hp : ∀ r ∈ s.replayed row b, r.data.isPatch = true) :
    s.selectPatches row.doc b.start.1 b.start.2 row.seq (.index row.opIndex) =
      s.replayed row b := by
  rw [selectPatches, Query.ascending_eq ((hasc row.doc).filter _), replayed, rowsUpTo,
    List.filter_filter]
  apply List.filter_congr
  intro r hr
  rw [isUpTo_index, Bool.eq_iff_iff]
  simp only [Bool.and_eq_true, decide_eq_true_eq]
  constructor
  · rintro ⟨⟨_, ha⟩, hle⟩; exact ⟨ha, hle⟩
  · rintro ⟨ha, hle⟩
    exact ⟨⟨hp r (List.mem_filter.2 ⟨mem_rowsUpTo.2 ⟨hr, hle⟩, ha⟩), ha⟩, hle⟩

/-- A reconstruction at a patch row is the replay of the rows up to it. -/
theorem reconstruct_eq (hasc : s.RowsAscending) (hsnap : s.SnapshotsSound)
    (hcache : s.CacheSound cached) (hrow : row ∈ s.revisions) (hpatch : row.data.isPatch = true)
    (hexact : exact = true ∨ ∀ r ∈ s.rowsOf row.doc, r.seq = row.seq → r.position ≤ row.position) :
    (some <$> s.reconstructPatchedDocument cached row.doc row.seq row.opIndex exact) =
      replayRows (s.rowsUpTo row.doc row.position) := by
  obtain ⟨d, hd, hbase, hne⟩ := replay_skipped hasc hsnap hcache hpatch hexact
  have hp : ∀ r ∈ s.replayed row
      (s.latestBaseAndSnapshot row.doc row.seq (.index row.opIndex) exact), r.data.isPatch = true :=
    fun r hr => replayed_isPatch hr
  simp only [reconstructPatchedDocument]
  generalize s.latestBaseAndSnapshot row.doc row.seq (.index row.opIndex) exact = b
    at hd hbase hne hp ⊢
  rw [selectPatches_eq hasc b hp]
  have hsplit : s.skipped row b ++ s.replayed row b = s.rowsUpTo row.doc row.position :=
    skipped_append_replayed hasc b
  cases hres : resumePoint cached (s.replayed row b) with
  | none =>
    dsimp only
    rw [← hsplit, hbase]
    refine (replayRows_append_patches hd hp (hne.imp id fun hnot => ?_)).symm
    have hmem : row ∈ s.rowsUpTo row.doc row.position :=
      mem_rowsUpTo.2 ⟨mem_rowsOf.2 ⟨hrow, rfl⟩, le_refl _⟩
    rw [← hsplit] at hmem
    exact List.ne_nil_of_mem ((List.mem_append.1 hmem).resolve_left hnot)
  | some found =>
    obtain ⟨document, rest⟩ := found
    dsimp only
    obtain ⟨older, r, hrows, hr⟩ := resumePoint_spec hres
    have hsplit' : (s.skipped row b ++ older ++ [r]) ++ rest =
        s.rowsUpTo row.doc row.position := by
      rw [← hsplit, hrows]; simp
    have hrmem : r ∈ s.rowsUpTo row.doc row.position := by rw [← hsplit']; simp
    obtain ⟨hrdoc, hrle⟩ := mem_rowsUpTo.1 hrmem
    have hrep := hcache r (mem_rowsOf.1 hrdoc).1 _ hr
    have hup : s.rowsUpTo r.doc r.position = s.skipped row b ++ older ++ [r] := by
      have hasc' : Query.Ascending RevisionRow.position
          ((s.skipped row b ++ older ++ [r]) ++ rest) := hsplit' ▸ (hasc row.doc).filter _
      have hrest := (Query.ascending_append.1 hasc').2.2
      have holder := (Query.ascending_concat.1 (Query.ascending_append.1 hasc').1).2
      have hfilter : s.rowsUpTo r.doc r.position =
          (s.rowsUpTo row.doc row.position).filter (·.position ≤ r.position) := by
        rw [rowsUpTo, rowsUpTo, List.filter_filter, (mem_rowsOf.1 hrdoc).2]
        apply List.filter_congr
        intro x _
        rw [Bool.eq_iff_iff]
        simp only [decide_eq_true_eq, Bool.and_eq_true, iff_self_and]
        exact fun h => h.trans hrle
      rw [hfilter, ← hsplit', List.filter_append, List.filter_eq_self.2, List.filter_eq_nil_iff.2,
        List.append_nil]
      · intro x hx
        simpa using hrest r (by simp) x hx
      · intro x hx
        rcases List.mem_append.1 hx with hx | hx
        · simpa using le_of_lt (holder x hx)
        · simp [List.mem_singleton.1 hx]
    rw [hup] at hrep
    rw [← hsplit', replayRows_append_patches hrep _ (Or.inl rfl)]
    · rfl
    · intro x hx
      exact hp x (by rw [hrows]; simp [hx])

end Start

end Store
