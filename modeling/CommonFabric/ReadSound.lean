import CommonFabric.Reconstruct
import CommonFabric.Writes

/-!
# Sound stores

The invariant of a store between transactions, and what each kind of change keeps of
it: rows in the order of their positions, one for each place; a head for each instance,
its last row; snapshots that hold the replay of what they stand for; branches under
parents made before them.
-/

namespace Store

/-- No two rows stand at one place of one instance. -/
def KeysUnique (s : Store) : Prop :=
  s.revisions.Pairwise fun a b => ¬(a.doc = b.doc ∧ a.seq = b.seq ∧ a.opIndex = b.opIndex)

/-- The head of each instance is its last row. -/
def HeadsCurrent (s : Store) : Prop :=
  ∀ doc, s.selectHead doc = ((s.rowsOf doc).getLast?).map headOf

/-- What holds of the rows, also while a commit writes. -/
structure RowsSound (s : Store) : Prop where
  ordered : s.revisions.Pairwise (·.position ≤ ·.position)
  unique : s.KeysUnique
  heads : s.HeadsCurrent
  commitsAscending : s.commits.Pairwise (·.seq < ·.seq)
  sessions : s.commits.Pairwise fun a b => ¬(a.sessionId = b.sessionId ∧ a.localSeq = b.localSeq)
  rowCommit : ∀ r ∈ s.revisions,
    r.commitSeq = r.seq ∧ ∃ c ∈ s.commits, c.seq = r.seq ∧ c.branch = r.doc.branch
  snapshots : s.SnapshotsSound
  snapshotRow : ∀ x ∈ s.snapshots, ∃ r ∈ s.rowsOf x.doc, r.seq = x.seq

/-- What holds of the branches, whose heads a commit raises last. -/
structure BranchesSound (s : Store) : Prop where
  names : s.branches.Pairwise (·.name ≠ ·.name)
  default : ∃ b ∈ s.branches, b.name = DEFAULT_BRANCH ∧ b.parentBranch = none
  created : ∀ b ∈ s.branches, b.createdSeq ≤ b.headSeq
  forks : ∀ b ∈ s.branches, b.forkSeq.getD 0 ≤ b.createdSeq
  commitHeads : ∀ c ∈ s.commits, ∃ b ∈ s.branches, b.name = c.branch ∧ c.seq ≤ b.headSeq
  parents : ∀ older b newer, s.branches = older ++ b :: newer → ∀ p, b.parentBranch = some p →
    ∃ b' ∈ older, b'.name = p

structure Sound (s : Store) : Prop extends RowsSound s, BranchesSound s

theorem rowsAscending_of_ordered {s : Store} (h : s.revisions.Pairwise (·.position ≤ ·.position))
    (hu : s.KeysUnique) : s.RowsAscending := by
  intro doc
  have hboth := List.pairwise_and_iff.2 ⟨h, hu⟩
  refine (hboth.filter (p := fun r => decide (r.doc = doc))).imp_of_mem ?_
  rintro a b ha hb ⟨hle, hne⟩
  have hda : a.doc = doc := by simpa using (List.mem_filter.1 ha).2
  have hdb : b.doc = doc := by simpa using (List.mem_filter.1 hb).2
  refine lt_of_le_of_ne hle fun heq => hne ⟨by rw [hda, hdb], ?_⟩
  have hpair : (a.seq, a.opIndex) = (b.seq, b.opIndex) := toLex.injective heq
  exact Prod.ext_iff.1 hpair

theorem RowsSound.ascending {s : Store} (h : s.RowsSound) : s.RowsAscending :=
  rowsAscending_of_ordered h.ordered h.unique

theorem le_foldl_max (l : List Nat) : ∀ n, n ≤ l.foldl max n ∧ ∀ m ∈ l, m ≤ l.foldl max n := by
  induction l with
  | nil => intro n; simp
  | cons k l ih =>
    intro n
    obtain ⟨hn, hl⟩ := ih (max n k)
    refine ⟨le_trans (le_max_left _ _) hn, fun m hm => ?_⟩
    rcases List.mem_cons.1 hm with rfl | hm
    · exact le_trans (le_max_right _ _) hn
    · exact hl m hm

variable {c : CommitRow} {branch : BranchName}

theorem seq_le_serverSeq {s : Store} (h : c ∈ s.commits) : c.seq ≤ s.serverSeq :=
  (le_foldl_max _ 0).2 _ (List.mem_map.2 ⟨c, h, rfl⟩)

theorem RowsSound.row_le_serverSeq {s : Store} (h : s.RowsSound) {r : RevisionRow}
    (hr : r ∈ s.revisions) : r.seq ≤ s.serverSeq := by
  obtain ⟨_, c, hc, hseq, _⟩ := h.rowCommit r hr
  exact hseq ▸ seq_le_serverSeq hc

/-- The commit a seq selects is the one that has it. -/
theorem selectCommit_of_mem {s : Store} (h : s.commits.Pairwise (·.seq < ·.seq))
    (hc : c ∈ s.commits) : s.selectCommit c.seq = some c := by
  refine Query.find?_of_unique hc (by simp) fun d hd hseq => ?_
  have hseq : d.seq = c.seq := by simpa using hseq
  rcases Query.eq_or_related_of_pairwise h hd hc with heq | hlt | hlt
  · exact heq
  · omega
  · omega

theorem selectCommit_mem {s : Store} {seq : Nat} (h : s.selectCommit seq = some c) :
    c ∈ s.commits ∧ c.seq = seq :=
  ⟨List.mem_of_find?_eq_some h, by simpa using List.find?_some h⟩

theorem selectExistingCommit_mem {s : Store} {key : JsString} {localSeq : Int}
    (h : s.selectExistingCommit key localSeq = some c) :
    c ∈ s.commits ∧ c.sessionId = key ∧ c.localSeq = localSeq := by
  refine ⟨List.mem_of_find?_eq_some h, ?_⟩
  simpa using List.find?_some h

theorem rowsOf_append (s : Store) (rows : List RevisionRow) (doc : DocInstance) :
    ({ s with revisions := s.revisions ++ rows } : Store).rowsOf doc =
      s.rowsOf doc ++ rows.filter (·.doc = doc) := by
  simp [rowsOf]

theorem rowsOf_of_revisions {s t : Store} (h : s.revisions = t.revisions) (doc : DocInstance) :
    s.rowsOf doc = t.rowsOf doc := by
  rw [rowsOf, rowsOf, h]

theorem Wrote.rowsOf {seq : Nat} {s s' : Store} {rows : List RevisionRow}
    (h : Wrote branch seq s rows s') (doc : DocInstance) :
    s'.rowsOf doc = s.rowsOf doc ++ rows.filter (·.doc = doc) := by
  rw [Store.rowsOf, h.revisions, List.filter_append]; rfl

theorem keysUnique_writeRow {s s' : Store} {r : RevisionRow} (hu : s.KeysUnique)
    (h : s.writeRow r = .ok s') : s'.KeysUnique := by
  obtain ⟨hnone, rfl⟩ := writeRow_ok h
  refine List.pairwise_append.2 ⟨hu, List.pairwise_singleton _ _, ?_⟩
  rintro a ha b hb ⟨hdoc, hseq, hindex⟩
  obtain rfl := List.mem_singleton.1 hb
  have := List.find?_eq_none.1 hnone a (mem_rowsOf.2 ⟨ha, hdoc⟩)
  simp [hseq, hindex] at this

theorem headsCurrent_writeRow {s s' : Store} {r : RevisionRow} (hh : s.HeadsCurrent)
    (h : s.writeRow r = .ok s') : s'.HeadsCurrent := by
  obtain ⟨_, rfl⟩ := writeRow_ok h
  intro doc
  have hrows := rowsOf_append { s with heads := s.heads.filter (·.doc ≠ r.doc) ++ [headOf r] } [r] doc
  dsimp only at hrows
  rw [hrows]
  by_cases hdoc : r.doc = doc
  · subst hdoc
    have hold : (s.heads.filter (·.doc ≠ r.doc)).find? (·.doc = r.doc) = none := by
      simp [List.find?_eq_none]
    simp only [selectHead]
    rw [List.find?_append, hold]
    simp [headOf]
  · have hold : (s.heads.filter (·.doc ≠ r.doc)).find? (·.doc = doc) =
        s.heads.find? (·.doc = doc) := by
      rw [List.find?_filter]
      congr 1
      funext x
      by_cases hx : x.doc = doc
      · simp [hx, Ne.symm hdoc]
      · simp [hx]
    have hcurrent := hh doc
    simp only [selectHead] at hcurrent ⊢
    rw [List.find?_append, hold, hcurrent]
    simp [hdoc, headOf, rowsOf]

/-- Rows at or before a seq are those of the store before a later one was written. -/
theorem Wrote.rowsThrough {seq : Nat} {s s' : Store}
    {rows : List RevisionRow} (h : Wrote branch seq s rows s') (doc : DocInstance) {n : Nat}
    (hn : n < seq) : s'.rowsThrough doc n = s.rowsThrough doc n := by
  rw [Store.rowsThrough, Store.rowsThrough, h.rowsOf, List.filter_append]
  have : (rows.filter (·.doc = doc)).filter (·.seq ≤ n) = [] := by
    rw [List.filter_eq_nil_iff]
    intro r hr
    have := (h.of_row (List.mem_filter.1 hr).1).2.1
    simpa [this] using hn
  rw [this, List.append_nil]

theorem positions_ascending {seq : Nat} {revisions : List AppliedRevision}
    (hseq : ∀ x ∈ revisions, x.row.seq = seq) (hasc : Commit.IndexAscending revisions) :
    (rowsOfRevisions revisions).Pairwise (·.position ≤ ·.position) := by
  refine List.pairwise_map.2 (hasc.imp_of_mem ?_)
  intro x y hx hy hle
  exact RevisionRow.position_le_iff.2 (.inr ⟨by rw [hseq x hx, hseq y hy], hle⟩)

/-- Rows of a new commit, in order, keep the rows sound. -/
theorem RowsSound.wrote {s s' : Store} {revisions : List AppliedRevision} (hs : s.RowsSound)
    (hc : c ∈ s.commits) (hbranch : c.branch = branch)
    (hnew : ∀ r ∈ s.revisions, ∀ x ∈ revisions, r.position ≤ x.row.position)
    (hsnap : ∀ x ∈ s.snapshots, x.seq < c.seq) (hasc : Commit.IndexAscending revisions)
    (h : Wrote branch c.seq s (rowsOfRevisions revisions) s') : s'.RowsSound where
  ordered := by
    have hmem : ∀ x ∈ revisions, x.row.seq = c.seq := fun x hx =>
      (h.of_row (List.mem_map.2 ⟨x, hx, rfl⟩)).2.1
    rw [h.revisions]
    refine List.pairwise_append.2 ⟨hs.ordered, positions_ascending hmem hasc, ?_⟩
    intro a ha b hb
    obtain ⟨x, hx, rfl⟩ := List.mem_map.1 hb
    exact hnew a ha x hx
  unique := h.preserves KeysUnique (fun _ _ h => h) (fun _ _ _ => keysUnique_writeRow) hs.unique
  heads := h.preserves HeadsCurrent (fun _ _ h => h) (fun _ _ _ => headsCurrent_writeRow) hs.heads
  commitsAscending := by rw [h.commits]; exact hs.commitsAscending
  sessions := by rw [h.commits]; exact hs.sessions
  rowCommit := by
    intro r hr
    rw [h.revisions] at hr
    rw [h.commits]
    rcases List.mem_append.1 hr with hr | hr
    · exact hs.rowCommit r hr
    · obtain ⟨hb, hseq, hcs⟩ := h.of_row hr
      exact ⟨by rw [hcs, hseq], c, hc, hseq.symm, by rw [hb, hbranch]⟩
  snapshots := by
    intro x hx
    rw [h.snapshots] at hx
    rw [h.rowsThrough _ (hsnap x hx)]
    exact hs.snapshots x hx
  snapshotRow := by
    intro x hx
    rw [h.snapshots] at hx
    obtain ⟨r, hr, hseq⟩ := hs.snapshotRow x hx
    exact ⟨r, by rw [h.rowsOf]; exact List.mem_append_left _ hr, hseq⟩

end Store

namespace Store

variable {s : Store} {doc : DocInstance} {cached : CachedDocument}

theorem selectRevisionRow_of_mem (hasc : s.RowsAscending) {r : RevisionRow}
    (hr : r ∈ s.rowsOf doc) : s.selectRevisionRow doc r.seq r.opIndex = some r := by
  refine Query.find?_of_unique hr (by simp) fun a ha hkey => ?_
  have hkey : a.seq = r.seq ∧ a.opIndex = r.opIndex := by simpa using hkey
  rcases Query.eq_or_related_of_pairwise (hasc doc) ha hr with heq | hlt | hlt
  · exact heq
  · have := RevisionRow.position_lt_iff.1 hlt; omega
  · have := RevisionRow.position_lt_iff.1 hlt; omega

/-- The head joined with its revision is the instance's last row. -/
theorem selectCurrentLocal_eq (hasc : s.RowsAscending) (hheads : s.HeadsCurrent)
    (doc : DocInstance) : s.selectCurrentLocal doc = (s.rowsOf doc).getLast? := by
  unfold selectCurrentLocal
  rw [hheads doc]
  cases h : (s.rowsOf doc).getLast? with
  | none => rfl
  | some r => exact selectRevisionRow_of_mem hasc (List.mem_of_getLast? h)

/-- No row of the instance stands after the row at its seq. -/
def LastOfSeq (s : Store) (row : RevisionRow) : Prop :=
  ∀ r ∈ s.rowsOf row.doc, r.seq = row.seq → r.position ≤ row.position

theorem selectAtSeqLocal_eq (hasc : s.RowsAscending) (doc : DocInstance) (seq : Nat) :
    s.selectAtSeqLocal doc seq = (s.rowsThrough doc seq).getLast? :=
  Query.newest_eq_getLast? ((hasc doc).filter _)

variable {b state : BranchState} {row : RevisionRow}

theorem selectBranch_of_mem (hs : s.BranchesSound) (hb : b ∈ s.branches) :
    s.selectBranch b.name = some b := by
  refine Query.find?_of_unique hb (by simp) fun a ha hname => ?_
  have hname : a.name = b.name := by simpa using hname
  rcases Query.eq_or_related_of_pairwise hs.names ha hb with heq | hne | hne
  · exact heq
  · exact absurd hname hne
  · exact absurd hname.symm hne

theorem selectBranch_mem {name : BranchName} (h : s.selectBranch name = some b) :
    b ∈ s.branches ∧ b.name = name :=
  ⟨List.mem_of_find?_eq_some h, by simpa using List.find?_some h⟩

theorem requireBranch_ok_iff {name : BranchName} :
    s.requireBranch name = .ok b ↔ s.selectBranch name = some b := by
  unfold requireBranch
  cases s.selectBranch name <;> simp

/-- A row's branch has a head at or past it. -/
theorem Sound.row_le_head (hs : s.Sound) {r : RevisionRow} (hr : r ∈ s.revisions)
    (hb : s.selectBranch r.doc.branch = some b) : r.seq ≤ b.headSeq := by
  obtain ⟨_, c, hc, hseq, hbranch⟩ := hs.rowCommit r hr
  obtain ⟨b', hb', hname, hle⟩ := hs.commitHeads c hc
  have hsel := selectBranch_of_mem hs.toBranchesSound hb'
  rw [hname, hbranch, hb] at hsel
  cases hsel
  omega

/-- The row a branch itself gives is the newest it holds at or before the seq. -/
theorem localRow_eq (doc : DocInstance) (hs : s.Sound)
    (hb : s.selectBranch doc.branch = some state) (seq : Nat) :
    (if seq = state.headSeq then s.selectCurrentLocal doc
      else s.selectAtSeqLocal doc seq) = (s.rowsThrough doc seq).getLast? := by
  split
  · rename_i heq
    subst heq
    rw [selectCurrentLocal_eq hs.ascending hs.heads, rowsThrough, List.filter_eq_self.2]
    intro r hr
    obtain ⟨hrev, hdoc⟩ := mem_rowsOf.1 hr
    simpa using hs.row_le_head hrev (by rw [hdoc]; exact hb)
  · exact selectAtSeqLocal_eq hs.ascending doc seq

/-- What the parent of a branch gives for an instance the branch holds no row of. -/
def inheritedRow (s : Store) (doc : DocInstance) (state : BranchState) (seq : Nat) :
    Except EngineError (Option RevisionRow) :=
  match state.parentBranch with
  | none => .ok none
  | some parent => s.readRowFrom doc.id doc.scopeKey (s.branches.length - 1) parent
      (some (min seq (state.forkSeq.getD 0)))

/-- The lowest seq a branch is read at. -/
def minSeq (state : BranchState) : Nat := if state.name = DEFAULT_BRANCH then 0 else state.createdSeq

/-- The newest row the branch itself holds at or before a seq, or else the inherited one. -/
theorem readRowForBranch_eq (hs : s.Sound)
    (hb : s.selectBranch doc.branch = some state) (seq? : Option Nat) :
    s.readRowForBranch doc seq? =
      let seq := seq?.getD state.headSeq
      if minSeq state ≤ seq ∧ seq ≤ state.headSeq then
        match (s.rowsThrough doc seq).getLast? with
        | some row => .ok (some row)
        | none => s.inheritedRow doc state seq
      else .error (outOfRange seq doc.branch) := by
  obtain ⟨hmem, hname⟩ := selectBranch_mem hb
  obtain ⟨n, hn⟩ : ∃ n, s.branches.length = n + 1 := by
    cases hbr : s.branches with
    | nil => rw [hbr] at hmem; cases hmem
    | cons x xs => exact ⟨xs.length, rfl⟩
  have hreq : s.requireBranch doc.branch = .ok state := requireBranch_ok_iff.2 hb
  simp only [readRowForBranch, hn, readRowFrom, hreq, Except.ok_bind, minSeq, hname]
  generalize seq?.getD state.headSeq = seq
  by_cases hrange : (if doc.branch = DEFAULT_BRANCH then 0 else state.createdSeq) ≤ seq ∧
      seq ≤ state.headSeq
  · rw [if_pos hrange]
    simp only [hrange.1, hrange.2, decide_true, Bool.and_self, require, if_true,
      Except.ok_bind]
    rw [localRow_eq _ hs hb seq]
    cases (s.rowsThrough doc seq).getLast? with
    | some row => rfl
    | none =>
      cases hp : state.parentBranch with
      | none => simp [inheritedRow, hp]
      | some parent => simp [inheritedRow, hp, hn]
  · rw [if_neg hrange]
    have : (decide ((if doc.branch = DEFAULT_BRANCH then 0 else state.createdSeq) ≤ seq) &&
        decide (seq ≤ state.headSeq)) = false := by
      rw [← Bool.decide_and]; exact decide_eq_false hrange
    simp [require, this]

/-- A branch's place among the branches bounds how deep a read of it goes. -/
theorem readRowFrom_enough (hs : s.BranchesSound) (id : EntityId) (scopeKey : ScopeKey) :
    ∀ (older : List BranchState) {b : BranchState} {newer : List BranchState} {n m : Nat}
      (seq? : Option Nat), s.branches = older ++ b :: newer → older.length < n →
      older.length < m → s.readRowFrom id scopeKey n b.name seq? =
        s.readRowFrom id scopeKey m b.name seq? := by
  intro older
  induction hlen : older.length using Nat.strong_induction_on generalizing older with
  | _ k ih =>
    intro b newer n m seq? hsplit hn hm
    obtain ⟨n, rfl⟩ := Nat.exists_eq_succ_of_ne_zero (Nat.ne_zero_of_lt hn)
    obtain ⟨m, rfl⟩ := Nat.exists_eq_succ_of_ne_zero (Nat.ne_zero_of_lt hm)
    have hsel : s.selectBranch b.name = some b :=
      selectBranch_of_mem hs (by rw [hsplit]; simp)
    simp only [readRowFrom, requireBranch_ok_iff.2 hsel, Except.ok_bind]
    congr 1
    funext _
    generalize (if seq?.getD b.headSeq = b.headSeq then s.selectCurrentLocal ⟨b.name, id, scopeKey⟩
      else s.selectAtSeqLocal ⟨b.name, id, scopeKey⟩ (seq?.getD b.headSeq)) = current
    cases current with
    | some row => rfl
    | none =>
      cases hp : b.parentBranch with
      | none => rfl
      | some parent =>
        -- The parent stands before the branch.
        obtain ⟨p, hpmem, rfl⟩ := hs.parents older b newer hsplit parent hp
        obtain ⟨older', rest, rfl⟩ := List.append_of_mem hpmem
        simp only [List.length_append, List.length_cons] at hlen hn hm
        exact ih older'.length (by omega) older' rfl _
          (by rw [hsplit, List.append_assoc, List.cons_append]) (by omega) (by omega)

/-- The inherited row is the parent's own read, at the fork or before it. -/
theorem inheritedRow_eq (hs : s.BranchesSound) (hmem : state ∈ s.branches)
    {parent : BranchName} (hp : state.parentBranch = some parent) (doc : DocInstance) (seq : Nat) :
    s.inheritedRow doc state seq = s.readRowForBranch ⟨parent, doc.id, doc.scopeKey⟩
      (some (min seq (state.forkSeq.getD 0))) := by
  obtain ⟨older, newer, hsplit⟩ := List.append_of_mem hmem
  obtain ⟨p, hpmem, rfl⟩ := hs.parents older state newer hsplit parent hp
  obtain ⟨older', rest, rfl⟩ := List.append_of_mem hpmem
  have hlen : s.branches.length = older'.length + rest.length + newer.length + 2 := by
    rw [hsplit]; simp; omega
  simp only [inheritedRow, hp, readRowForBranch]
  exact readRowFrom_enough hs _ _ older' _
    (by rw [hsplit, List.append_assoc, List.cons_append]) (by omega) (by omega)

theorem rowsUpTo_concat (hasc : s.RowsAscending) {r : RevisionRow} (hr : r ∈ s.revisions) :
    ∃ older, s.rowsUpTo r.doc r.position = older ++ [r] := by
  obtain ⟨older, h, _⟩ := Query.filter_le_eq_concat (hasc r.doc) (mem_rowsOf.2 ⟨hr, rfl⟩)
  exact ⟨older, h⟩

/-- Rows written after a row do not change what it stands for. -/
theorem rowsUpTo_initial {s' : Store} (hasc : s'.RowsAscending) (h : s.revisions <+: s'.revisions)
    (hrow : row ∈ s.revisions) :
    s'.rowsUpTo row.doc row.position = s.rowsUpTo row.doc row.position := by
  obtain ⟨rest, hrest⟩ := h
  have hrows : s'.rowsOf row.doc = s.rowsOf row.doc ++ rest.filter (·.doc = row.doc) := by
    rw [rowsOf, ← hrest, List.filter_append]; rfl
  have hlater := (Query.ascending_append.1 (hrows ▸ hasc row.doc)).2.2 row
    (mem_rowsOf.2 ⟨hrow, rfl⟩)
  rw [rowsUpTo, rowsUpTo, hrows, List.filter_append, List.append_right_eq_self,
    List.filter_eq_nil_iff]
  intro r hr
  simpa using hlater r hr

/-- A resolved row is decoded to the replay of the rows up to it, whatever the cache holds. -/
theorem rowDocument_eq (hasc : s.RowsAscending) (hsnap : s.SnapshotsSound)
    (hcache : s.CacheSound cached) (hrow : row ∈ s.revisions)
    (hlast : s.LastOfSeq row) :
    s.rowDocument cached row = replayRows (s.rowsUpTo row.doc row.position) := by
  obtain ⟨older, holder⟩ := rowsUpTo_concat hasc hrow
  unfold rowDocument
  split
  · rename_i d hd
    exact (hcache row hrow d hd).symm
  · split
    · rename_i d hd
      rw [holder, replayRows_concat_set _ _ hd]
    · rename_i hd
      rw [holder, replayRows_concat_delete _ _ hd]
    · rename_i ps hd
      exact reconstruct_eq hasc hsnap hcache hrow (by rw [hd]; rfl) (.inr hlast)

theorem rowsThrough_last (hasc : s.RowsAscending) {seq : Nat}
    (h : (s.rowsThrough doc seq).getLast? = some row) :
    row ∈ s.revisions ∧ row.doc = doc ∧ s.LastOfSeq row ∧
      s.rowsUpTo row.doc row.position = s.rowsThrough doc seq := by
  have hmem := List.mem_of_getLast? h
  obtain ⟨hrow, hle⟩ := List.mem_filter.1 hmem
  obtain ⟨hrev, rfl⟩ := mem_rowsOf.1 hrow
  have hasc' : Query.Ascending RevisionRow.position (s.rowsThrough row.doc seq) :=
    (hasc row.doc).filter _
  have hnew : Query.newest RevisionRow.position (s.rowsThrough row.doc seq) = some row := by
    rw [Query.newest_eq_getLast? hasc', h]
  have hle' : row.seq ≤ seq := by simpa using hle
  have hall : ∀ r ∈ s.rowsOf row.doc, r.seq ≤ seq → r.position ≤ row.position := fun r hr hseq =>
    Query.le_newest hnew (List.mem_filter.2 ⟨hr, by simpa using hseq⟩)
  refine ⟨hrev, rfl, fun r hr hseq => hall r hr (by omega), ?_⟩
  apply List.filter_congr
  intro r hr
  rw [Bool.eq_iff_iff, decide_eq_true_eq, decide_eq_true_eq]
  constructor
  · intro hp; exact (RevisionRow.seq_le_of_position_le hp).trans hle'
  · exact hall r hr

/-- A read resolves to a row of the instance, on some branch, that is the last of its seq. -/
theorem readRowFrom_last (hasc : s.RowsAscending) (hheads : s.HeadsCurrent) {id : EntityId}
    {scopeKey : ScopeKey} {n : Nat} {branch : BranchName} {seq? : Option Nat}
    (h : s.readRowFrom id scopeKey n branch seq? = .ok (some row)) :
    row ∈ s.revisions ∧ row.doc.id = id ∧ row.doc.scopeKey = scopeKey ∧ s.LastOfSeq row := by
  induction n generalizing branch seq? with
  | zero => cases h
  | succ n ih =>
    obtain ⟨state, _, h⟩ := Except.bind_ok_iff.1 h
    obtain ⟨_, h⟩ := Except.check_ok_iff.1 h
    generalize hcur : (if seq?.getD state.headSeq = state.headSeq then
      s.selectCurrentLocal ⟨branch, id, scopeKey⟩
      else s.selectAtSeqLocal ⟨branch, id, scopeKey⟩ (seq?.getD state.headSeq)) = current at h
    cases current with
    | some found =>
      cases h
      split at hcur
      · rw [selectCurrentLocal_eq hasc hheads] at hcur
        have hnew := (Query.newest_eq_getLast? (hasc _)).trans hcur
        obtain ⟨hmem, hdoc⟩ := mem_rowsOf.1 (List.mem_of_getLast? hcur)
        refine ⟨hmem, by rw [hdoc], by rw [hdoc], fun r hr _ => Query.le_newest hnew ?_⟩
        rw [← hdoc]; exact hr
      · rw [selectAtSeqLocal_eq hasc] at hcur
        obtain ⟨hmem, hdoc, hlast, _⟩ := rowsThrough_last hasc hcur
        exact ⟨hmem, by rw [hdoc], by rw [hdoc], hlast⟩
    | none =>
      cases hp : state.parentBranch with
      | none => rw [hp] at h; cases h
      | some parent => rw [hp] at h; exact ih h

/-- The newest local row stands for the replay of the rows through the seq. -/
theorem rowDocument_last (hs : s.RowsSound) (hcache : s.CacheSound cached) {seq : Nat}
    (h : (s.rowsThrough doc seq).getLast? = some row) :
    s.rowDocument cached row = replayRows (s.rowsThrough doc seq) := by
  obtain ⟨hrev, _, hlast, hup⟩ := rowsThrough_last hs.ascending h
  rw [rowDocument_eq hs.ascending hs.snapshots hcache hrev hlast, hup]

/-- The instance's history on its branch is local as of a seq: the branch holds a row of
it, or inherits none. -/
def BranchLocal (s : Store) (doc : DocInstance) (state : BranchState) (seq : Nat) : Prop :=
  s.rowsThrough doc seq ≠ [] ∨ s.inheritedRow doc state seq = .ok none

/-- A seq a branch can be read at. -/
def InRange (state : BranchState) (seq : Nat) : Prop := minSeq state ≤ seq ∧ seq ≤ state.headSeq

instance (s : Store) (doc : DocInstance) (state : BranchState) (seq : Nat) :
    Decidable (s.BranchLocal doc state seq) := inferInstanceAs (Decidable (_ ∨ _))

instance (state : BranchState) (seq : Nat) : Decidable (InRange state seq) :=
  inferInstanceAs (Decidable (_ ∧ _))

theorem rowsThrough_head (hs : s.Sound)
    (hb : s.selectBranch doc.branch = some state) :
    s.rowsThrough doc state.headSeq = s.rowsOf doc := by
  rw [rowsThrough, List.filter_eq_self]
  intro r hr
  obtain ⟨hrev, hdoc⟩ := mem_rowsOf.1 hr
  simpa using hs.row_le_head hrev (by rw [hdoc]; exact hb)

theorem Sound.head_inRange (hs : s.Sound) {name : BranchName}
    (hb : s.selectBranch name = some state) : InRange state state.headSeq := by
  have := hs.created state (selectBranch_mem hb).1
  refine ⟨?_, le_refl _⟩
  unfold minSeq
  split <;> omega

/-- The document a read decodes, whatever the cache holds. -/
def readDocument (s : Store) (cached : CachedDocument) (doc : DocInstance) (seq : Option Nat) :
    Except EngineError (Option EntityDocument) := do
  match ← s.readRowForBranch doc seq with
  | none => .ok none
  | some row => s.rowDocument cached row

/-- A read of branch-local history is the replay of the instance's rows through the seq. -/
theorem readDocument_eq (hs : s.Sound) (hcache : s.CacheSound cached)
    (hb : s.selectBranch doc.branch = some state) (seq? : Option Nat)
    (hrange : InRange state (seq?.getD state.headSeq))
    (hlocal : s.BranchLocal doc state (seq?.getD state.headSeq)) :
    s.readDocument cached doc seq? =
      replayRows (s.rowsThrough doc (seq?.getD state.headSeq)) := by
  rw [readDocument, readRowForBranch_eq hs hb]
  dsimp only
  rw [if_pos (show _ ∧ _ from hrange)]
  cases h : (s.rowsThrough doc (seq?.getD state.headSeq)).getLast? with
  | some row =>
    rw [Except.ok_bind]
    exact rowDocument_last hs.toRowsSound hcache h
  | none =>
    have hnil := List.getLast?_eq_none_iff.1 h
    have hinherit := hlocal.resolve_left (not_not.2 hnil)
    simp only [hinherit, Except.ok_bind, hnil]
    rfl

theorem documentAt_eq (hs : s.Sound)
    (hb : s.selectBranch doc.branch = some state) (seq? : Option Nat)
    (hrange : InRange state (seq?.getD state.headSeq))
    (hlocal : s.BranchLocal doc state (seq?.getD state.headSeq)) :
    s.documentAt doc seq? = replayRows (s.rowsThrough doc (seq?.getD state.headSeq)) :=
  readDocument_eq hs (noCache_sound s) hb seq? hrange hlocal

end Store
