import CommonFabric.Branching
import CommonFabric.ReadCheck
import CommonFabric.RowFrame

/-!
# Coherence of confirmed reads

An admitted confirmed read saw, at its path, what the document holds there when its
commit takes its seq: whatever was written since is patches that do not touch the path,
and a patch changes nothing outside of what it touches, as long as it moves no element
of an array by index.
-/

namespace Store

variable {s : Store} {doc : DocInstance}

/-- The rows of an instance after a seq. -/
def rowsAfter (s : Store) (doc : DocInstance) (seq : Nat) : List RevisionRow :=
  (s.rowsOf doc).filter (seq < ·.seq)

theorem rowsThrough_append_rowsAfter (hasc : s.RowsAscending) (doc : DocInstance) (seq : Nat) :
    s.rowsThrough doc seq ++ s.rowsAfter doc seq = s.rowsOf doc := by
  have h := Query.filter_not_append_filter (hasc doc) (fun r => decide (seq < r.seq)) ?_
  · rw [rowsThrough, rowsAfter]
    convert h using 3
    funext r
    rw [Bool.eq_iff_iff]
    simp
  · intro a b hab ha
    have hle := RevisionRow.seq_le_of_position_le (le_of_lt hab)
    simp only [decide_eq_true_eq] at ha ⊢
    omega

/-- The document goes on from what the branch shows at a seq: the branch had rows of its own by
then, or showed no document, or the first of its rows since is no patch. -/
def GoesOn (s : Store) (doc : DocInstance) (seq : Nat) : Prop :=
  s.rowsThrough doc seq ≠ [] ∨ s.documentAt doc (some seq) = .ok none ∨
    ∀ row ∈ (s.rowsAfter doc seq).head?, row.data.isPatch = false

instance (s : Store) (doc : DocInstance) (seq : Nat) : Decidable (s.GoesOn doc seq) :=
  inferInstanceAs (Decidable (_ ∨ _))

/-- A document is read on a branch that is there. -/
theorem selectBranch_of_documentAt {seq? : Option Nat} {d : Option EntityDocument}
    (h : s.documentAt doc seq? = .ok d) : ∃ state, s.selectBranch doc.branch = some state := by
  obtain ⟨row?, hrow, _⟩ := Except.bind_ok_iff.1 (show s.documentAt doc seq? = .ok d from h)
  rw [readRowForBranch] at hrow
  cases hlen : s.branches.length with
  | zero => rw [hlen] at hrow; cases hrow
  | succ n =>
    rw [hlen] at hrow
    obtain ⟨state, hb, _⟩ := Except.bind_ok_iff.1 hrow
    exact ⟨state, requireBranch_ok_iff.1 hb⟩

/-- A document is read at a seq of its branch only. -/
theorem documentAt_seq_ok (hs : s.Sound) {seq : Nat} {before : Option EntityDocument}
    (hbefore : s.documentAt doc (some seq) = .ok before) :
    ∃ state, s.selectBranch doc.branch = some state ∧ InRange state seq := by
  obtain ⟨state, hb⟩ := selectBranch_of_documentAt hbefore
  refine ⟨state, hb, ?_⟩
  by_contra hnot
  rw [documentAt, readRowForBranch_eq hs hb] at hbefore
  simp only [Option.getD_some] at hbefore
  rw [if_neg (show ¬(_ ∧ _) from hnot)] at hbefore
  cases hbefore

/-- The default branch has no parent. -/
theorem Sound.default_parent (hs : s.Sound) {state : BranchState}
    (hb : s.selectBranch DEFAULT_BRANCH = some state) : state.parentBranch = none := by
  obtain ⟨b, hmem, hname, hparent⟩ := hs.default
  have hsel := selectBranch_of_mem hs.toBranchesSound hmem
  rw [hname, hb] at hsel
  cases hsel
  exact hparent

/-- What a branch inherits does not change with its head. -/
theorem inheritedRow_head (hs : s.Sound) {state : BranchState} {seq : Nat}
    (hb : s.selectBranch doc.branch = some state) (hrange : InRange state seq) :
    s.inheritedRow doc state seq = s.inheritedRow doc state state.headSeq := by
  obtain ⟨hmem, hname⟩ := selectBranch_mem hb
  unfold inheritedRow
  cases hparent : state.parentBranch with
  | none => rfl
  | some parent =>
    have hne : state.name ≠ DEFAULT_BRANCH := by
      intro hdefault
      rw [← hname, hdefault] at hb
      rw [hs.default_parent hb] at hparent
      cases hparent
    have hlow := hrange.1
    have hhigh := hrange.2
    have hfork := hs.forks state hmem
    rw [minSeq, if_neg hne] at hlow
    have hsame : min seq (state.forkSeq.getD 0) = min state.headSeq (state.forkSeq.getD 0) := by
      omega
    simp only [hsame]

/-- An instance that no row was written to since a seq reads at the head as it did. -/
theorem documentAt_unwritten (hs : s.Sound) {seq : Nat} (hnone : s.rowsAfter doc seq = [])
    {before : Option EntityDocument} (hbefore : s.documentAt doc (some seq) = .ok before) :
    s.documentAt doc none = .ok before := by
  obtain ⟨state, hb, hrange⟩ := documentAt_seq_ok hs hbefore
  have hthrough : s.rowsThrough doc seq = s.rowsOf doc := by
    rw [← rowsThrough_append_rowsAfter hs.ascending doc seq, hnone, List.append_nil]
  rw [← hbefore]
  simp only [documentAt, readRowForBranch_eq hs hb, Option.getD_some, Option.getD_none]
  rw [if_pos (show _ ∧ _ from hs.head_inRange hb), if_pos (show _ ∧ _ from hrange),
    rowsThrough_head hs hb, hthrough, inheritedRow_head hs hb hrange]

/-- What the rows after a seq are replayed on: the document at the seq, where the branch had rows
of its own by then. -/
def replayedOn (s : Store) (doc : DocInstance) (seq : Nat) (before : Option EntityDocument) :
    Option EntityDocument :=
  if s.rowsThrough doc seq = [] then none else before

theorem documentAt_written (hs : s.Sound) {seq : Nat} (hwritten : s.rowsAfter doc seq ≠ [])
    {before : Option EntityDocument} (hbefore : s.documentAt doc (some seq) = .ok before) :
    s.documentAt doc none = ReplayLog.replay applyRevision (.ok (s.replayedOn doc seq before))
      ((s.rowsAfter doc seq).map (·.data.entry)) := by
  have hthrough : replayRows (s.rowsThrough doc seq) = .ok (s.replayedOn doc seq before) := by
    by_cases hrows : s.rowsThrough doc seq = []
    · rw [replayedOn, if_pos hrows, hrows]; rfl
    · obtain ⟨state, hb, hrange⟩ := documentAt_seq_ok hs hbefore
      rw [replayedOn, if_neg hrows, ← hbefore]
      exact (documentAt_eq hs hb (some seq) hrange (.inl hrows)).symm
  have hsplit := rowsThrough_append_rowsAfter hs.ascending doc seq
  rw [documentAt_own hs (by rw [← hsplit]; exact List.append_ne_nil_of_right_ne_nil _ hwritten),
    ← hsplit, replayRows, List.map_append, ReplayLog.replay_append, ← replayRows, hthrough]

/-- A log that starts with a reset is replayed alike from any state. -/
theorem replay_of_reset {rows : List RevisionRow} {row : RevisionRow}
    (hrow : row.data.isPatch = false) (state : Except EngineError (Option EntityDocument)) :
    ReplayLog.replay applyRevision state ((row :: rows).map (·.data.entry)) =
      replayRows (row :: rows) := by
  rw [replayRows, List.map_cons]
  cases hdata : row.data with
  | set value => rfl
  | delete => rfl
  | patch patches => rw [hdata] at hrow; cases hrow

/-- The document now is the one it goes on from with the rows after it replayed. -/
theorem documentAt_since (hs : s.Sound) {seq : Nat} (hgoes : s.GoesOn doc seq)
    {before : Option EntityDocument} (hbefore : s.documentAt doc (some seq) = .ok before) :
    s.documentAt doc none = ReplayLog.replay applyRevision (.ok before)
      ((s.rowsAfter doc seq).map (·.data.entry)) := by
  by_cases hwritten : s.rowsAfter doc seq = []
  · rw [documentAt_unwritten hs hwritten hbefore, hwritten]; rfl
  · rw [documentAt_written hs hwritten hbefore, replayedOn]
    split
    · rename_i hrows
      rcases hgoes.resolve_left (not_not.2 hrows) with hnone | hfirst
      · rw [Except.ok.inj (hbefore.symm.trans hnone)]
      · obtain ⟨row, rows, hafter⟩ := List.exists_cons_of_ne_nil hwritten
        rw [hafter] at hfirst ⊢
        rw [replay_of_reset (hfirst row rfl), replay_of_reset (hfirst row rfl)]
    · rfl

/-- A read that no row after its seq conflicts with. -/
theorem ConflictFree.coherent (hs : s.Sound) {path : ValuePath} {seq : Nat}
    (h : s.ConflictFree doc seq path false none) (hgoes : s.GoesOn doc seq)
    {before now : Option EntityDocument} (hbefore : s.documentAt doc (some seq) = .ok before)
    (hnow : s.documentAt doc none = .ok now)
    (hkeep : rowsKeepElements (.ok before) (s.rowsAfter doc seq) = true) :
    documentValueAt now path = documentValueAt before path := by
  rw [documentAt_since hs hgoes hbefore] at hnow
  refine replay_leavesAt (fun row hrow => ?_) (.ok before) (fun d hd => by cases hd; rfl) hkeep now
    hnow
  obtain ⟨hmem, hseq⟩ := List.mem_filter.1 hrow
  obtain ⟨hpatch, hops⟩ := h row hmem (by simpa using hseq) rfl
  exact ⟨hpatch, fun op hop => (hops op hop).leavesAt _⟩

end Store

namespace Commit

open Store

variable {opens : Engine → Prop} {e : Engine} {s s' : Store} {o : ApplyCommitOptions}
  {r : AppliedCommit}

/-- A document set by one session and then patched by another. -/
def foreignPatch (document : EntityDocument) (patches : List PatchOp) : List ApplyCommitOptions :=
  [.authored "s" (.ofOperations 1 [.set "of:d" none document]),
   .authored "t" (.ofOperations 1 [.patch "of:d" none patches])]

end Commit
