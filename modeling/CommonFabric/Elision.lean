import CommonFabric.ElidedOperations
import CommonFabric.ReadCoherence

/-!
# The rows of content-addressed documents

A row of a `cid:` document is of a `set` that the content-addressed pass admitted: it is
the first the branch shows of the document, at the default scope, and of a value whose
hash is the id.
-/

namespace Commit

open Store ContentAddressed

variable {e : Engine} {s s' : Store} {o : ApplyCommitOptions} {sessionKey : JsString}
  {a : Admission} {r : AppliedCommit}

theorem isContentAddressed_of_sidecar {id : EntityId} (h : isStreamEntriesDocId id = true) :
    isContentAddressed id = false := by
  obtain ⟨units⟩ := id
  rw [isStreamEntriesDocId, JsString.startsWith, List.isPrefixOf_iff_prefix] at h
  obtain ⟨rest, hrest⟩ := h
  rw [isContentAddressed, JsString.startsWith, ← hrest]
  rfl

/-- A row of a `cid:` document, with the operation it is of. -/
structure CidRow (e : Engine) (s : Store) (o : ApplyCommitOptions) (a : Admission)
    (row : RevisionRow) : Prop where
  operation : ∃ step ∈ o.commit.operations.zipIdx, ∃ scope value,
    step.1 = .set row.doc.id scope value ∧ row.opIndex = step.2 ∧
      installsVerifiedContent e row.doc.id value = true ∧
      (storedAsGiven o a step = true → row.data = .set value)
  doc : row.doc = cidDoc o.branch row.doc.id
  fresh : s.documentAt row.doc none = .ok none

/-- What the pass left out is elided. -/
theorem not_elided_of_pass {st : PassState}
    (hreads : admitReads s sessionKey o st.elidedOpIndexes = .ok a.reads)
    {step : Operation × Nat} (hstep : step ∈ o.commit.operations.zipIdx)
    (hnot : a.reads.elidedOpIndexes.contains step.2 = false) :
    step.2 ∉ st.elidedOpIndexes := by
  intro hmem
  rcases admitReads_ok hreads with ⟨_, heq, _⟩ | ⟨_, heq, _⟩
  · rw [heq, List.contains_iff_mem.2 hmem] at hnot
    cases hnot
  · obtain ⟨hlt, _⟩ := List.getElem?_eq_some_iff.1 (List.mem_zipIdx_iff_getElem?.1 hstep)
    rw [heq, List.contains_iff_mem.2 (List.mem_range.2 hlt)] at hnot
    cases hnot

theorem Accepted.cidRow (h : Accepted e s o sessionKey a s' r) {x : AppliedRevision}
    (hx : x ∈ r.revisions) (hcid : isContentAddressed x.row.doc.id = true) :
    CidRow e s o a x.row := by
  obtain ⟨written, maintained, hrows⟩ := h.storedRows
  obtain ⟨elided, hpass, hreads⟩ := h.admitted.elided
  obtain ⟨st, hspec, rfl⟩ := validateContentAddressed_spec hpass
  rw [hrows.revisions] at hx
  rcases List.mem_append.1 hx with hx | hx
  · rw [hrows.blocks] at hx
    obtain ⟨step, hstep, hx⟩ := List.mem_flatMap.1 hx
    have hstored := hrows.steps step hstep
    have hid : step.1.id? = some x.row.doc.id := by
      rcases hstored.names x hx with hid | hanchors
      · exact hid
      · rw [isContentAddressed_of_anchors hanchors] at hcid; cases hcid
    obtain ⟨scope, value, hop, hscope, hset⟩ := hspec.sets step hstep _ hid hcid
    have hwrite : step.1.write?.isSome = true := by rw [hop]; rfl
    have hnot : a.reads.elidedOpIndexes.contains step.2 = false := by
      by_contra helided
      rw [Bool.not_eq_false] at helided
      rw [hstored.elided hwrite helided] at hx
      cases hx
    obtain ⟨y, hy, hdoc, hgiven⟩ := hstored.written hwrite hnot
    rw [hy, List.mem_singleton] at hx
    subst hx
    have hcidDoc : x.row.doc = cidDoc o.branch x.row.doc.id := by
      rw [h.admitted.scopeKey_default hstep hop hscope] at hdoc
      exact (Option.some.inj hdoc).symm
    have hnotElidable : x.row.doc.id ∉ st.elidableCidIds := fun hmem =>
      not_elided_of_pass hreads hstep hnot
        ((hspec.elided _).2 ⟨step, hstep, rfl, _, hid, hcid, hmem⟩)
    obtain ⟨hhash, hfresh⟩ := hspec.installed _ _ hset
    rw [if_neg hnotElidable, show o.passContext.branch = o.branch from rfl, ← hcidDoc] at hfresh
    refine ⟨⟨step, hstep, scope, value, hop, ?_, hhash, fun hstored => ?_⟩, hcidDoc, hfresh⟩
    · exact ((List.mem_filter.1 (hy ▸ List.mem_singleton_self x : x ∈ revisionsAt _ _)).2 |>
        of_decide_eq_true)
    · have := hgiven hstored
      rw [hop] at this
      exact (Option.some.inj this).symm
  · obtain ⟨y, _, _, hsidecar⟩ := hrows.sidecars x hx
    rw [isContentAddressed_of_sidecar hsidecar] at hcid
    cases hcid

end Commit

namespace Store

open ContentAddressed

variable {opens : Engine → Prop} {s s' : Store}

/-- A branch that was forked past the end of the log stands there until the log reaches
it, and holds no row of a `cid:` document: what it inherits cannot be read so far. -/
def AheadUnread (s : Store) : Prop :=
  ∀ b ∈ s.branches, s.serverSeq < b.headSeq →
    b.parentBranch.isSome = true ∧ b.forkSeq = some b.headSeq ∧
      ∀ r ∈ s.revisions, r.doc.branch = b.name → isContentAddressed r.doc.id = false

/-- At a seq past the log a `cid:` document cannot be read. -/
theorem AheadUnread.readRowFrom (hs : s.Sound) (h : s.AheadUnread) {id : EntityId}
    (hcid : isContentAddressed id = true) (key : ScopeKey) (row? : Option RevisionRow) :
    ∀ (n : Nat) (name : BranchName) (seq? : Option Nat),
      (∀ b, s.selectBranch name = some b → s.serverSeq < seq?.getD b.headSeq) →
      s.readRowFrom id key n name seq? ≠ .ok row? := by
  intro n
  induction n with
  | zero => intro name seq? _ hread; cases hread
  | succ n ih =>
    intro name seq? hahead hread
    obtain ⟨state, hstate, hread⟩ := Except.bind_ok_iff.1 hread
    obtain ⟨hrange, hread⟩ := Except.check_ok_iff.1 hread
    simp only [require_ok_iff, Bool.and_eq_true, decide_eq_true_eq] at hrange
    have hb := requireBranch_ok_iff.1 hstate
    have hlog := hahead state hb
    obtain ⟨hmem, hname⟩ := selectBranch_mem hb
    obtain ⟨hparent, hfork, hrows⟩ := h state hmem (lt_of_lt_of_le hlog hrange.2)
    have hnone : s.rowsThrough ⟨name, id, key⟩ (seq?.getD state.headSeq) = [] := by
      rw [rowsThrough, rowsOf, List.filter_filter, List.filter_eq_nil_iff]
      intro r hr
      simp only [Bool.and_eq_true, decide_eq_true_eq]
      rintro ⟨_, hdoc⟩
      have := hrows r hr (by rw [hdoc, hname])
      rw [hdoc, hcid] at this
      cases this
    rw [localRow_eq ⟨name, id, key⟩ hs hb, hnone] at hread
    obtain ⟨parent, hp⟩ := Option.isSome_iff_exists.1 hparent
    rw [hp] at hread
    exact ih parent _ (fun _ _ => by
      rw [Option.getD_some, hfork, Option.getD_some]; omega) hread

theorem AheadUnread.documentAt (hs : s.Sound) (h : s.AheadUnread) {doc : DocInstance}
    {b : BranchState} (hb : s.selectBranch doc.branch = some b) (hcid : isContentAddressed doc.id = true)
    {d : Option EntityDocument} (hread : s.documentAt doc none = .ok d) :
    b.headSeq ≤ s.serverSeq := by
  by_contra hahead
  obtain ⟨row?, hrow, _⟩ := Except.bind_ok_iff.1 (show s.documentAt doc none = .ok d from hread)
  refine h.readRowFrom hs hcid doc.scopeKey row? _ doc.branch none (fun b' hb' => ?_) hrow
  rw [hb] at hb'
  cases hb'
  exact not_le.1 hahead

theorem AheadUnread.commit (hs : s.Sound) (h : s.AheadUnread) {e : Engine}
    {o : ApplyCommitOptions} {sessionKey : JsString} {a : Commit.Admission} {r : AppliedCommit}
    (ha : Commit.Accepted e s o sessionKey a s' r) : s'.AheadUnread := by
  have hserver : s.serverSeq < s'.serverSeq := by
    have hmem : Commit.finalRow o sessionKey a s.nextSeq r.operationResolutions ∈ s'.commits := by
      rw [ha.effect.commits]; simp
    have := seq_le_serverSeq hmem
    rw [show (Commit.finalRow o sessionKey a s.nextSeq r.operationResolutions).seq = s.nextSeq
      from rfl, nextSeq] at this
    omega
  have hnext : s.nextSeq ≤ s'.serverSeq := hserver
  intro b' hb' hahead
  rw [ha.effect.branches] at hb'
  obtain ⟨b, hb, rfl⟩ := List.mem_map.1 hb'
  obtain ⟨hname, hparent, hfork, _, _, _⟩ := raised_spec o.branch s.nextSeq b
  have hhead : (raised o.branch s.nextSeq b).headSeq = b.headSeq := by
    unfold raised at hahead ⊢
    by_cases hcommit : b.name = o.branch
    · rw [if_pos hcommit] at hahead ⊢
      dsimp only at hahead ⊢
      by_cases hlt : b.headSeq < s.nextSeq
      · rw [if_pos hlt] at hahead
        omega
      · rw [if_neg hlt]
    · rw [if_neg hcommit]
  rw [hhead] at hahead
  obtain ⟨hp, hf, hrows⟩ := h b hb (hserver.trans hahead)
  refine ⟨by rw [hparent]; exact hp, by rw [hfork, hhead, hf], ?_⟩
  intro row hrow hbranch
  rw [ha.effect.revisions] at hrow
  rcases List.mem_append.1 hrow with hrow | hrow
  · exact hrows row hrow (by rw [hbranch, hname])
  · obtain ⟨x, hx, rfl⟩ := List.mem_map.1 hrow
    by_contra hcid
    rw [Bool.not_eq_false] at hcid
    have hread := (ha.cidRow hx hcid).fresh
    have hsel : s.selectBranch x.row.doc.branch = some b := by
      rw [hbranch, hname]; exact selectBranch_of_mem hs.toBranchesSound hb
    have := h.documentAt hs hsel hcid hread
    omega

theorem AheadUnread.createBranch (hs : s.Sound) (h : s.AheadUnread) {name : BranchName}
    {parent : Option BranchName} {forkSeq : Option Nat}
    (hb : s.createBranch name parent forkSeq = .ok s') : s'.AheadUnread := by
  obtain rfl | ⟨hnone, p, _, rfl⟩ := createBranch_ok hb
  · exact h
  · intro b hmem hahead
    rcases List.mem_append.1 hmem with hmem | hmem
    · exact h b hmem hahead
    · obtain rfl := List.mem_singleton.1 hmem
      refine ⟨rfl, rfl, fun row hrow hbranch => ?_⟩
      -- A name that is new has no rows.
      obtain ⟨_, c, hc, _, hcbranch⟩ := hs.rowCommit row hrow
      obtain ⟨b', hb', hname, _⟩ := hs.commitHeads c hc
      have := List.find?_eq_none.1 hnone b' hb'
      rw [hname, hcbranch, hbranch] at this
      simp at this

theorem AheadUnread.deleteBranch (h : s.AheadUnread) {branch : BranchName}
    (hb : s.deleteBranch branch = .ok s') : s'.AheadUnread := by
  obtain ⟨_, _, hb⟩ := Except.bind_ok_iff.1 hb
  cases hb
  intro b hmem hahead
  obtain ⟨b', hb', rfl⟩ := List.mem_map.1 hmem
  split at hahead
  · rename_i hcond
    rw [if_pos hcond]
    exact h b' hb' hahead
  · rename_i hcond
    rw [if_neg hcond]
    exact h b' hb' hahead

theorem Reachable.aheadUnread (hreach : Reachable opens s) : s.AheadUnread := by
  induction hreach with
  | refl =>
    intro b hb hahead
    obtain rfl := List.mem_singleton.1 hb
    cases hahead
  | tail ht hstep ih =>
    have hs := Reachable.sound ht
    rcases hstep.cases hs with ⟨_, _, _, _, t', _, _, _, _, ha, rfl⟩ | ⟨_, _, _, hb⟩ | ⟨_, hb⟩ |
      ⟨_, _, rfl⟩
    · exact show t'.AheadUnread from ih.commit hs ha
    · exact ih.createBranch hs hb
    · exact ih.deleteBranch hb
    · exact ih

end Store

namespace Commit

open Store ContentAddressed

variable {opens : Engine → Prop} {e : Engine} {s s' : Store} {o : ApplyCommitOptions}
  {sessionKey : JsString} {a : Admission} {r : AppliedCommit} {doc : DocInstance}

/-- The commit's rows of the instance build on what the branch showed: the branch had rows of
its own, or showed no document, or the first of the commit's rows is no patch. -/
def BuildsOnShown (s : Store) (r : AppliedCommit) (doc : DocInstance) : Prop :=
  s.rowsOf doc ≠ [] ∨ s.documentAt doc none = .ok none ∨
    ∀ row ∈ (rowsOn r.revisions doc).head?, row.data.isPatch = false

/-- The rows of a commit, replayed on the document before it. -/
theorem Accepted.documentAt_rows (hs : s.Sound) (h : Accepted e s o sessionKey a s' r)
    (hbranch : doc.branch = o.branch) (hbuilds : BuildsOnShown s r doc) :
    s'.documentAt doc none = ReplayLog.replay applyRevision (s.documentAt doc none)
      ((rowsOn r.revisions doc).map (·.data.entry)) := by
  cases hrows : rowsOn r.revisions doc with
  | nil => rw [h.effect.documentAt_unwritten hs h.sound hbranch hrows]; rfl
  | cons row rows =>
    have hafter : s'.rowsOf doc = s.rowsOf doc ++ row :: rows := by
      rw [h.effect.rowsOf, ← rowsOn, hrows]
    rw [documentAt_own h.sound (by simp [hafter]), hafter]
    by_cases hold : s.rowsOf doc = []
    · rw [hold, List.nil_append]
      rcases hbuilds with hown | hnone | hfirst
      · exact absurd hold hown
      · rw [hnone]; rfl
      · rw [hrows] at hfirst
        exact (replay_of_reset (hfirst row rfl) _).symm
    · rw [documentAt_own hs hold, replayRows, List.map_append, ReplayLog.replay_append]
      rfl

variable {written maintained : List AppliedRevision}

/-- An instance whose writes are all elided has no row of the commit. -/
theorem ElidedOn.rowsOn_nil (h : ElidedOn s o a doc)
    (hrows : StoredRows o a r written maintained) :
    rowsOn written doc = [] ∧ rowsOn maintained doc = [] := by
  have hwritten : rowsOn written doc = [] := by
    rw [hrows.rowsOn_eq, List.flatMap_eq_nil_iff]
    exact fun step hstep => h.rowless step hstep _ (hrows.steps step hstep)
  refine ⟨hwritten, ?_⟩
  rw [rowsOn, List.filter_eq_nil_iff] at hwritten ⊢
  intro row hrow hdoc
  obtain ⟨x, hx, rfl⟩ := List.mem_map.1 hrow
  obtain ⟨y, hy, hsame, _⟩ := hrows.sidecars x hx
  refine hwritten y.row (List.mem_map.2 ⟨y, hy, rfl⟩) ?_
  rwa [← hsame]

/-- The watermarks of an instance that a derived commit stores after its operations. -/
def watermarkEntries (maintained : List AppliedRevision) (doc : DocInstance) :
    List (LogEntry (Option EntityDocument) (List PatchOp)) :=
  (rowsOn maintained doc).map (·.data.entry)

/-- The document after is the document before with all of the commit's operations. -/
theorem Accepted.documentAt_operations (hs : s.Sound) (h : Accepted e s o sessionKey a s' r)
    (hrows : StoredRows o a r written maintained)
    (hverdicts : a.reads.tookIdentityEscape = true → o.elidedVerdicts = false)
    (hbranch : doc.branch = o.branch) (hbuilds : BuildsOnShown s r doc) :
    s'.documentAt doc none = ReplayLog.replay applyRevision (s.documentAt doc none)
      (commitEntries o a written doc ++ watermarkEntries maintained doc) := by
  rcases h.admitted.elided_cases hverdicts doc with hwritten | helided
  · rw [hrows.entries_of_written hwritten, h.documentAt_rows hs hbranch hbuilds, hrows.revisions,
      rowsOn_append, List.map_append, watermarkEntries]
  · obtain ⟨hnone, hmaintained⟩ := helided.rowsOn_nil hrows
    rw [StoredRows.entries_of_elided hnone helided.all, watermarkEntries, hmaintained, List.map_nil,
      List.append_nil, helided.identity]
    refine h.effect.documentAt_unwritten hs h.sound hbranch ?_
    rw [hrows.revisions, rowsOn_append, hnone, hmaintained]
    rfl

/-- Every operation of the commit is elided. -/
def AllElided (o : ApplyCommitOptions) (a : Admission) : Prop :=
  ∀ step ∈ o.commit.operations.zipIdx, a.reads.elidedOpIndexes.contains step.2 = true

theorem Wrote.heads_nil {branch : BranchName} {seq : Nat} {t t' : Store} {rows : List RevisionRow}
    (h : Wrote branch seq t rows t') (hrows : rows = []) : t'.heads = t.heads := by
  induction h with
  | refl => rfl
  | fields _ _ ih => exact ih hrows
  | row => simp at hrows

/-- Such a commit stores no row. -/
theorem AllElided.revisions_nil (hall : AllElided o a) (h : Admitted e s o sessionKey a)
    (hrows : StoredRows o a r written maintained) : r.revisions = [] := by
  have hwritten : written = [] := by
    rw [hrows.blocks, List.flatMap_eq_nil_iff]
    intro step hstep
    have hmem := List.contains_iff_mem.1 (hall step hstep)
    exact (hrows.steps step hstep).elided (h.indexesOfWrites.write hstep hmem) (hall step hstep)
  cases hmaintained : maintained with
  | nil => rw [hrows.revisions, hwritten, hmaintained]; rfl
  | cons x xs =>
    obtain ⟨y, hy, _⟩ := hrows.sidecars x (by rw [hmaintained]; exact List.mem_cons_self)
    rw [hwritten] at hy
    cases hy

/-- And moves no head. -/
theorem Accepted.heads_of_nil (h : Accepted e s o sessionKey a s' r)
    (hnil : r.revisions = []) : s'.heads = s.heads := by
  obtain ⟨st, s₂, _, hsteps, hmaintain, hsnap, _⟩ := writeCommit_ok h.written
  obtain ⟨added, hadded, hwrote, _⟩ := writeSteps_wrote hsteps ((zipIdx_ascending _).imp le_of_lt)
  obtain ⟨added', hadded', hwrote', _⟩ := maintainWatermarks_wrote hmaintain
  rw [List.nil_append] at hadded
  rw [hnil, hadded] at hadded'
  obtain ⟨rfl, rfl⟩ := List.append_eq_nil_iff.1 hadded'.symm
  obtain ⟨commits, hres⟩ := recordResolutions_eq st.store s.nextSeq a.reads.resolvedPendingReads
    st.operationResolutions
  have h₁ : st.store.heads = s.heads := by rw [Wrote.heads_nil hwrote rfl]
  have h₂ : s₂.heads = s.heads := by
    rw [Wrote.heads_nil hwrote' rfl, hres]; exact h₁
  rw [hnil] at hsnap
  unfold materializeSnapshots at hsnap
  split at hsnap
  · cases hsnap; exact h₂
  · cases hsnap; exact h₂

/-- The commit was admitted as an identity, of a session whose replica keeps what its
transaction computed, so that its operations were tried on its own view alone. -/
def tookItsWord (o : ApplyCommitOptions) (a : Admission) : Bool :=
  a.reads.tookIdentityEscape && o.elidedVerdicts

/-- The commit's operations on the instance make the stored document of the document that
the commit's read of it saw, or of the stored one where the commit read none. -/
def MakesStored (s : Store) (o : ApplyCommitOptions) (sessionKey : JsString) (doc : DocInstance) :
    Prop :=
  ∃ stored view, s.documentAt doc none = .ok (some stored) ∧
    (view = some stored ∨ ∃ scope, Identity.basisOf s
      ⟨o.passContext, sessionKey, o.commit, o.elidedVerdicts⟩ doc scope stored = .ok (some view)) ∧
    ReplayLog.replay applyRevision (.ok view)
      ((o.commit.operations.zipIdx.filterMap (writeOn o doc)).map (·.entry)) = .ok (some stored)

/-- An identity commit elides all, and makes what is stored. -/
theorem Admitted.identity (h : Admitted e s o sessionKey a)
    (hescape : a.reads.tookIdentityEscape = true) :
    AllElided o a ∧ ∀ doc, ∀ step ∈ o.commit.operations.zipIdx,
      (writeOn o doc step).isSome = true → MakesStored s o sessionKey doc := by
  obtain ⟨elided, hpass, hreads⟩ := h.elided
  obtain ⟨st, hspec, rfl⟩ := validateContentAddressed_spec hpass
  rcases admitReads_ok hreads with ⟨hnot, _⟩ | ⟨_, heq, _, hidentity⟩
  · rw [hescape] at hnot; cases hnot
  · have hall : AllElided o a := by
      intro step hstep
      rw [heq, List.contains_iff_mem, List.mem_range]
      obtain ⟨hlt, _⟩ := List.getElem?_eq_some_iff.1 (List.mem_zipIdx_iff_getElem?.1 hstep)
      exact hlt
    refine ⟨hall, fun doc step hstep hwrite => ?_⟩
    rcases h.identity_cases hspec hidentity hstep hwrite with ⟨hdoc, hcid, hmem⟩ | ⟨_, stored, hproved⟩
    · obtain ⟨value, hset⟩ := Option.isSome_iff_exists.1 (hspec.elidable _ hmem)
      have hstored := (hspec.installed _ _ hset).2
      rw [if_pos hmem, show o.passContext.branch = o.branch from rfl, ← hdoc] at hstored
      have helided : ElidedOn s o a doc := by
        rw [hdoc]
        refine elidedOn_cid hspec (fun i hi => ?_) hcid hmem
        obtain ⟨x, hx, hindex, _⟩ := (hspec.elided i).1 hi
        exact hindex ▸ List.contains_iff_mem.1 (hall x hx)
      refine ⟨value, some value, hstored, .inl rfl, ?_⟩
      rw [← hstored]
      exact helided.identity
    · obtain ⟨scope, view, hview, hreplay⟩ := hproved.view
      exact ⟨stored, view, hproved.document, .inr ⟨scope, hview⟩, hreplay⟩

/-- A commit that elides an operation stores nothing, or writes on a branch whose head is
in the log. -/
theorem Accepted.elided_inLog (hreach : Reachable opens s) (h : Accepted e s o sessionKey a s' r)
    (hrows : StoredRows o a r written maintained) (helided : r.elidedOpIndexes ≠ []) :
    r.revisions = [] ∨ s.HeadInLog o.branch := by
  rw [h.effect.elided] at helided
  obtain ⟨elided, hpass, hreads⟩ := h.admitted.elided
  obtain ⟨st, hspec, rfl⟩ := validateContentAddressed_spec hpass
  rcases admitReads_ok hreads with ⟨_, heq, _⟩ | ⟨hescape, _⟩
  · right
    intro b hb
    rw [heq] at helided
    obtain ⟨i, hi⟩ := List.exists_mem_of_ne_nil _ helided
    obtain ⟨_, _, _, id, _, hcid, hmem⟩ := (hspec.elided i).1 hi
    obtain ⟨value, hset⟩ := Option.isSome_iff_exists.1 (hspec.elidable id hmem)
    have hread := (hspec.installed _ _ hset).2
    rw [if_pos hmem] at hread
    exact hreach.aheadUnread.documentAt hreach.sound hb hcid hread
  · exact .inl ((h.admitted.identity hescape).1.revisions_nil h.admitted hrows)

/-- After an accepted commit a document is what the document before and all of the
commit's operations make of it; those that are elided changed nothing of it. -/
theorem elision_changes_nothing (hreach : Reachable opens s)
    (h : applyCommitTransaction e s o = .ok (s', r)) (hfresh : r.replayed = false) :
    ∃ sessionKey a written maintained,
      resolveCommitSessionKey o.sessionId o.principal = .ok sessionKey ∧
      admitCommit e s o sessionKey = .ok a ∧ StoredRows o a r written maintained ∧
      (tookItsWord o a = false → ∀ doc, doc.branch = o.branch → BuildsOnShown s r doc →
        s'.documentAt doc none = ReplayLog.replay applyRevision (s.documentAt doc none)
          (commitEntries o a written doc ++ watermarkEntries maintained doc)) ∧
      (tookItsWord o a = true → ∀ doc, doc.branch = o.branch →
        s'.documentAt doc none = s.documentAt doc none ∧
          ∀ step ∈ o.commit.operations.zipIdx, (writeOn o doc step).isSome = true →
            MakesStored s o sessionKey doc) ∧
      (r.elidedOpIndexes ≠ [] → ∀ doc, doc.branch ≠ o.branch → ∀ d,
        s.documentAt doc none = .ok d → s'.documentAt doc none = .ok d) ∧
      (AllElided o a → s'.revisions = s.revisions ∧ s'.heads = s.heads) := by
  have hs := hreach.sound
  obtain ⟨sessionKey, hkey, ⟨_, hreplayed⟩ | ⟨a, ha⟩⟩ := applyCommitTransaction_cases hs h
  · rw [hreplayed] at hfresh; cases hfresh
  obtain ⟨written, maintained, hrows⟩ := ha.storedRows
  refine ⟨sessionKey, a, written, maintained, hkey, ha.admission, hrows, ?_, ?_, ?_, ?_⟩
  · intro hword doc hbranch hbuilds
    refine ha.documentAt_operations hs hrows (fun hescape => ?_) hbranch hbuilds
    rwa [tookItsWord, hescape, Bool.true_and] at hword
  · intro hword doc hbranch
    rw [tookItsWord, Bool.and_eq_true] at hword
    obtain ⟨hall, hmakes⟩ := ha.admitted.identity hword.1
    have hnil := hall.revisions_nil ha.admitted hrows
    exact ⟨ha.effect.documentAt_unwritten hs ha.sound hbranch (by rw [hnil]; rfl), hmakes doc⟩
  · intro helided doc hne d hd
    exact ha.effect.documentAt_other hs ha.sound (ha.elided_inLog hreach hrows helided) hne hd
  · intro hall
    have hnil := hall.revisions_nil ha.admitted hrows
    refine ⟨?_, ha.heads_of_nil hnil⟩
    rw [ha.effect.revisions, hnil]
    exact List.append_nil _

/-- The commit is accepted with an operation elided, and its operations, all as they were
given, do not make the document after it of the document before. -/
def elisionChanges (s : Store) (o : ApplyCommitOptions) (doc : DocInstance) : Bool :=
  match applyCommitTransaction (bareEngine 0 0) s o with
  | .ok (s', r) => !r.replayed && r.elidedOpIndexes ≠ [] && s'.documentAt doc none ≠
      ReplayLog.replay applyRevision (s.documentAt doc none)
        ((o.commit.operations.zipIdx.filterMap (writeOn o doc)).map RevisionData.entry)
  | .error _ => false

/-- One element of two spliced out by another session. -/
def splicedHistory : List ApplyCommitOptions :=
  [.authored "s" (.ofOperations 1
    [.set "of:d" none ⟨[("value", .record [("a", .array [some .null, some .null])])]⟩]),
   .authored "t" (.ofOperations 1 [.patch "of:d" none [.splice "/value/a" 0 1 []]])]

def resplicedStore : Store := storeAfter (bareEngine 0 0) splicedHistory

/-- The same splice of the document as it was, from a replica that keeps what it computed. -/
def spliceAgain : ApplyCommitOptions :=
  { ApplyCommitOptions.authored "s"
      { ClientCommit.ofOperations 2 [.patch "of:d" none [.splice "/value/a" 0 1 []]] with
        confirmed := [⟨"of:d", none, none, ["value", "a"], 1, false⟩] } with
    elidedVerdicts := true }

/-- A set of a content-addressed document. -/
def setContent : Operation := .set "cid:" none ⟨[("value", .null)]⟩

def contentHistory : List ApplyCommitOptions := [.authored "s" (.ofOperations 1 [setContent])]

def contentStore : Store := storeAfter (bareEngine 0 0) contentHistory

def appendedEntry : FabricValue :=
  .record [("eventId", .string "e"),
    ("stream", .record [("id", .string "of:x"), ("path", .array [])])]

/-- The content again, and an event appended to a stream. -/
def appendBeside : ApplyCommitOptions :=
  { ApplyCommitOptions.authored "s" { ClientCommit.ofOperations 2 [setContent,
        .set "of:stream-events:" none
          ⟨[("value", .record [("entries", .array [some appendedEntry])])]⟩] with
      eventAppends := [⟨"of:stream-events:", none, "e"⟩] } with
    principal := some "u" }

/-- A commit with an elided operation whose operations as given do not make the document:
one that is taken at its word, and one with an append, which is stored as it is stamped. -/
theorem elision_changes_something :
    (Reachable (fun _ => True) resplicedStore ∧
      elisionChanges resplicedStore spliceAgain ⟨DEFAULT_BRANCH, "of:d", DEFAULT_SCOPE_KEY⟩ = true) ∧
    Reachable (fun _ => True) contentStore ∧
      elisionChanges contentStore appendBeside
        ⟨DEFAULT_BRANCH, "of:stream-events:", DEFAULT_SCOPE_KEY⟩ = true := by
  refine ⟨⟨?_, by decide +kernel⟩, ?_, by decide +kernel⟩
  · exact Later.of_applyCommits (e := bareEngine 0 0) trivial splicedHistory (by decide +kernel)
  · exact Later.of_applyCommits (e := bareEngine 0 0) trivial contentHistory (by decide +kernel)

/-- The content again, beside a document that is set. -/
def setBeside : ApplyCommitOptions :=
  .authored "s" (.ofOperations 2 [setContent, .set "of:d" none ⟨[]⟩])

theorem elision_changes_nothing_beside :
    ∃ s' r, applyCommitTransaction (bareEngine 0 0) contentStore setBeside = .ok (s', r) ∧
      r.elidedOpIndexes = [0] ∧ ∃ a written maintained,
        StoredRows setBeside a r written maintained ∧
        s'.documentAt ⟨DEFAULT_BRANCH, "cid:", DEFAULT_SCOPE_KEY⟩ none =
          ReplayLog.replay applyRevision
            (contentStore.documentAt ⟨DEFAULT_BRANCH, "cid:", DEFAULT_SCOPE_KEY⟩ none)
            (commitEntries setBeside a written ⟨DEFAULT_BRANCH, "cid:", DEFAULT_SCOPE_KEY⟩ ++
              watermarkEntries maintained ⟨DEFAULT_BRANCH, "cid:", DEFAULT_SCOPE_KEY⟩) := by
  have hreach : Reachable (fun _ => True) contentStore :=
    Later.of_applyCommits (e := bareEngine 0 0) trivial contentHistory (by decide +kernel)
  have haccepted : applyCommitTransaction (bareEngine 0 0) contentStore setBeside =
      .ok (applied (bareEngine 0 0) contentStore setBeside) := by decide +kernel
  obtain ⟨sessionKey, a, written, maintained, _, _, hrows, hoperations, _⟩ :=
    elision_changes_nothing hreach haccepted (by decide +kernel)
  refine ⟨_, _, haccepted, by decide +kernel, a, written, maintained, hrows, ?_⟩
  refine hoperations ?_ _ (by decide +kernel) (.inl (by decide +kernel))
  rw [tookItsWord, show setBeside.elidedVerdicts = false from rfl, Bool.and_false]

end Commit
