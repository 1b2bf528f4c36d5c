import CommonFabric.Elision

/-!
# What later transactions leave of a read

A store is only added to: its rows and commits come at later seqs, its branches stay and their heads
rise. A read at a seq that the log has reached finds for ever what it found, in the branches it
inherits from too, and a `cid:` document that a branch shows is shown for ever. Branches are apart:
a fork shows its parent as of the fork.
-/

namespace Store

open ContentAddressed Branching Commit

variable {opens : Engine → Prop} {s s' t : Store} {doc : DocInstance} {b : BranchState} {seq : Nat}
  {d : Option EntityDocument}

/-- The branches stay where they were, with heads that are no lower, and others come after. -/
def BranchesStay (s s' : Store) : Prop :=
  s.branches.length ≤ s'.branches.length ∧ ∀ {name b}, s.selectBranch name = some b →
    ∃ headSeq active, b.headSeq ≤ headSeq ∧ s'.selectBranch name = some { b with headSeq, active }

theorem Step.branchesStay (h : Step opens s s') (hs : s.Sound) : BranchesStay s s' := by
  obtain ⟨e, o, sessionKey, a, t, r, x, y, _, ha, rfl⟩ | ⟨name, parent, forkSeq, h⟩ | ⟨branch, h⟩ |
    ⟨x, y, rfl⟩ := h.cases hs
  · refine ⟨Nat.le_of_eq (by simp [ha.effect.branches]), fun {name b} hb => ?_⟩
    refine ⟨_, b.active, (raised_spec o.branch s.nextSeq b).2.2.2.2.1, ?_⟩
    refine (ha.effect.selectBranch name).trans ?_
    rw [hb, Option.map_some, raised]
    split <;> rfl
  · obtain rfl | ⟨_, p, _, rfl⟩ := createBranch_ok h
    · exact ⟨le_refl _, fun hb => ⟨_, _, le_refl _, hb⟩⟩
    · refine ⟨by simp, fun {name b} hb => ⟨b.headSeq, b.active, le_refl _, ?_⟩⟩
      rw [selectBranch] at hb ⊢
      rw [List.find?_append, hb, Option.some_or]
  · obtain ⟨_, _, h⟩ := Except.bind_ok_iff.1 h
    cases h
    refine ⟨by simp, fun {name b} hb =>
      ⟨_, (if b.name = branch && b.name ≠ DEFAULT_BRANCH then false else b.active),
        le_refl b.headSeq, ?_⟩⟩
    rw [selectBranch] at hb
    simp only [selectBranch, List.find?_map]
    have hname : (fun b : BranchState => decide (b.name = name)) ∘ (fun b : BranchState =>
        if b.name = branch && b.name ≠ DEFAULT_BRANCH then { b with active := false } else b) =
          fun b => decide (b.name = name) := by
      funext b
      dsimp only [Function.comp]
      split <;> rfl
    rw [hname, hb, Option.map_some]
    split <;> rfl
  · exact ⟨le_refl _, fun hb => ⟨_, _, le_refl _, hb⟩⟩

theorem Later.branchesStay (h : Later opens s s') (hs : s.Sound) : BranchesStay s s' := by
  induction h with
  | refl => exact ⟨le_refl _, fun hb => ⟨_, _, le_refl _, hb⟩⟩
  | tail hlater hstep ih =>
    obtain ⟨hcount, hstay⟩ := hstep.branchesStay (Later.sound hlater hs)
    refine ⟨ih.1.trans hcount, fun hb => ?_⟩
    obtain ⟨_, _, hle, hb₁⟩ := ih.2 hb
    obtain ⟨headSeq, active, hle₁, hb₂⟩ := hstay hb₁
    exact ⟨headSeq, active, hle.trans hle₁, hb₂⟩

theorem Later.rowsThrough (h : Later opens s s') (hs : s.Sound) (hseq : seq ≤ s.serverSeq) :
    s'.rowsThrough doc seq = s.rowsThrough doc seq := by
  obtain ⟨_, rows, hrows, hnew⟩ := h.commits hs
  rw [Store.rowsThrough, Store.rowsThrough, rowsOf, rowsOf, hrows, List.filter_append,
    List.filter_append, List.append_right_eq_self, List.filter_eq_nil_iff]
  intro r hr
  have hr := List.mem_of_mem_filter hr
  have hcommit := ((h.sound hs).rowCommit r (hrows ▸ List.mem_append_right _ hr)).1
  have := hnew r hr
  simp only [decide_eq_true_eq]
  omega

/-- A read at a seq of the log passes through the same rows of the same branches. -/
theorem Later.readRowFrom (h : Later opens s s') (hs : s.Sound) {id : EntityId} {key : ScopeKey}
    {row? : Option RevisionRow} {n m : Nat} (hfuel : n ≤ m) :
    ∀ {name : BranchName} {seq : Nat}, seq ≤ s.serverSeq →
      s.readRowFrom id key n name (some seq) = .ok row? →
      s'.readRowFrom id key m name (some seq) = .ok row? := by
  induction n generalizing m with
  | zero =>
    intro name seq _ hread
    cases hread
  | succ n ih =>
    obtain ⟨m, rfl⟩ := Nat.exists_eq_add_of_lt hfuel
    intro name seq hseq hread
    obtain ⟨b, hb, hread⟩ := Except.bind_ok_iff.1 hread
    have hb := requireBranch_ok_iff.1 hb
    obtain ⟨headSeq, active, hhead, hb'⟩ := (h.branchesStay hs).2 hb
    obtain ⟨hrange, hread⟩ := Except.check_ok_iff.1 hread
    simp only [require_ok_iff, Bool.and_eq_true, decide_eq_true_eq, Option.getD_some] at hrange
    simp only [Store.readRowFrom, requireBranch_ok_iff.2 hb', Except.ok_bind, Option.getD_some,
      require, hrange.1, hrange.2.trans hhead, decide_true, Bool.and_self, if_true]
    rw [localRow_eq ⟨name, id, key⟩ (h.sound hs) hb', h.rowsThrough hs hseq]
    rw [Option.getD_some, localRow_eq ⟨name, id, key⟩ hs hb] at hread
    cases hlast : (s.rowsThrough ⟨name, id, key⟩ seq).getLast? with
    | some row => rw [hlast] at hread; exact hread
    | none =>
      rw [hlast] at hread
      cases hp : b.parentBranch with
      | none => rw [hp] at hread; exact hread
      | some parent =>
        rw [hp] at hread
        exact ih (by omega) (Nat.le_trans (Nat.min_le_left _ _) hseq) hread

theorem Later.documentAt (h : Later opens s s') (hs : s.Sound) (hseq : seq ≤ s.serverSeq)
    (hd : s.documentAt doc (some seq) = .ok d) : s'.documentAt doc (some seq) = .ok d := by
  obtain ⟨row?, hrow, _⟩ := Except.bind_ok_iff.1 (show s.documentAt doc (some seq) = .ok d from hd)
  have hrow' : s'.readRowForBranch doc (some seq) = .ok row? :=
    h.readRowFrom hs (h.branchesStay hs).1 hseq hrow
  rw [documentAt_of_readRow hs (h.sound hs) (h.revisions hs) hrow hrow', hd]

/-- What a document is read to at a seq of the log it is read to at that seq ever after. -/
theorem past_reads_stand (hreach : Reachable opens s) (hlater : Later opens s s')
    (hseq : seq ≤ s.serverSeq) (h : s.documentAt doc (some seq) = .ok d) :
    s'.documentAt doc (some seq) = .ok d :=
  hlater.documentAt hreach.sound hseq h

def shared : EntityDocument := ⟨[("value", .record [("a", .null)])]⟩

def forked : Store := forkedStore shared

def onDefault : DocInstance := ⟨DEFAULT_BRANCH, "of:d", DEFAULT_SCOPE_KEY⟩

def plain : Store := inheritedStore shared

/-- A document, its branch forked, and the document patched on the fork. -/
theorem fork_runs :
    applyCommits (bareEngine 0 0) .empty (inheritedHistory shared) = .ok plain ∧
    plain.createBranch "b" none none = .ok forked ∧
    applyCommitTransaction (bareEngine 0 0) forked patchOnBranch = .ok (patchedFork shared) ∧
    plain.selectBranch "b" = none ∧ plain.selectBranch "" = some ⟨"", none, none, 0, 1, true⟩ ∧
    forked.selectBranch "" = some ⟨"", none, none, 0, 1, true⟩ ∧
    forked.selectBranch "b" = some ⟨"b", some "", some 1, 1, 1, true⟩ ∧
    1 ≤ plain.serverSeq ∧ 1 ≤ forked.serverSeq ∧
    (∀ c ∈ (patchedFork shared).1.commits, forked.serverSeq < c.seq → c.branch ≠ "") ∧
    forked.rowsOf forkDoc = [] ∧ plain.documentAt onDefault none = .ok (some shared) ∧
    forked.documentAt onDefault none = .ok (some shared) ∧
    forked.documentAt forkDoc (some 1) = .ok (some shared) := by
  decide +kernel

/-- Since the fork, another session deletes the document on the default branch, and the first one
sets another document on the fork. -/
def sinceFork : List ApplyCommitOptions :=
  [.authored "t" (.ofOperations 1 [.delete "of:d" none]),
   .authored "s" { ClientCommit.ofOperations 2 [.set "of:e" none ⟨[]⟩] with branch := some "b" }]

/-- The branch, session and local seq of each commit. -/
def callersSince : List (BranchName × JsString × Int) :=
  [("", "s", 1), ("", "t", 1), ("b", "s", 2)]

def forkedSince : Store := (applyCommits (bareEngine 0 0) forked sinceFork).toOption.getD .empty

theorem since_runs :
    applyCommits (bareEngine 0 0) forked sinceFork = .ok forkedSince ∧
    forkedSince.selectBranch "b" = some ⟨"b", some "", some 1, 1, 3, true⟩ ∧
    forkedSince.rowsOf forkDoc = [] ∧ forkedSince.documentAt onDefault none = .ok none ∧
    forkedSince.commits.map (fun c => (c.branch, c.sessionId, c.localSeq)) = callersSince := by
  decide +kernel

theorem inherited_reachable : Reachable (fun _ => True) plain :=
  Later.of_applyCommits (e := bareEngine 0 0) trivial _ fork_runs.1

theorem fork_patched :
    Reachable (fun _ => True) forked ∧ Later (fun _ => True) forked (patchedFork shared).1 := by
  obtain ⟨_, hcreate, hpatch, _⟩ := fork_runs
  exact ⟨.tail inherited_reachable (.createBranch hcreate), .single (.commit trivial hpatch)⟩

theorem fork_since : Later (fun _ => True) forked forkedSince :=
  Later.of_applyCommits (e := bareEngine 0 0) trivial _ since_runs.1

/-- A branch's patch does not reach back to what the branch had inherited. -/
theorem past_read_of_fork :
    (patchedFork shared).1.documentAt forkDoc (some 1) = .ok (some shared) := by
  obtain ⟨_, _, _, _, _, _, _, _, hseq, _, _, _, _, hread⟩ := fork_runs
  exact past_reads_stand fork_patched.1 fork_patched.2 hseq hread

example : (patchedFork shared).1.documentAt forkDoc none ≠ .ok (some shared) := by decide +kernel

/-- From the seq of its last row on, and past its fork, a branch shows a document as at its head. -/
theorem documentAt_from_last (hs : s.Sound) (hb : s.selectBranch doc.branch = some b)
    (hrange : InRange b seq) (hfork : b.forkSeq.getD 0 ≤ seq)
    (hrows : s.rowsThrough doc seq = s.rowsOf doc) :
    s.documentAt doc (some seq) = s.documentAt doc none := by
  have hhead := hs.head_inRange hb
  have hread : s.readRowForBranch doc (some seq) = s.readRowForBranch doc none := by
    rw [readRowForBranch_eq hs hb, readRowForBranch_eq hs hb]
    dsimp only
    rw [Option.getD_some, Option.getD_none, if_pos (show _ ∧ _ from hrange),
      if_pos (show _ ∧ _ from hhead), hrows, rowsThrough_head hs hb, inheritedRow, inheritedRow,
      Nat.min_eq_right hfork, Nat.min_eq_right (hfork.trans hrange.2)]
  rw [Store.documentAt, hread, Store.documentAt]

/-- A branch that writes nothing to a document shows what it showed. -/
theorem Later.unwritten (h : Later opens s s') (hs : s.Sound)
    (hb : s.selectBranch doc.branch = some b) (hhead : b.headSeq ≤ s.serverSeq)
    (hrows : s'.rowsOf doc = s.rowsOf doc) (hd : s.documentAt doc none = .ok d) :
    s'.documentAt doc none = .ok d := by
  have hmem := (selectBranch_mem hb).1
  have hfork : b.forkSeq.getD 0 ≤ b.headSeq := (hs.forks b hmem).trans (hs.created b hmem)
  obtain ⟨headSeq, active, hle, hb'⟩ := (h.branchesStay hs).2 hb
  rw [← documentAt_from_last hs hb (hs.head_inRange hb) hfork (rowsThrough_head hs hb)] at hd
  rw [← documentAt_from_last (h.sound hs) hb' ⟨(hs.head_inRange hb).1, hle⟩ hfork
    (by rw [h.rowsThrough hs hhead, rowsThrough_head hs hb, hrows])]
  exact h.documentAt hs hhead hd

/-- What a branch shows stands until a commit on the branch itself. -/
theorem branches_isolated (hreach : Reachable opens s) (hlater : Later opens s s')
    (hb : s.selectBranch doc.branch = some b) (hhead : b.headSeq ≤ s.serverSeq)
    (hothers : ∀ c ∈ s'.commits, s.serverSeq < c.seq → c.branch ≠ doc.branch)
    (h : s.documentAt doc none = .ok d) : s'.documentAt doc none = .ok d := by
  have hs := hreach.sound
  refine hlater.unwritten hs hb hhead ?_ h
  obtain ⟨_, rows, hrows, hnew⟩ := hlater.commits hs
  rw [rowsOf, rowsOf, hrows, List.filter_append, List.append_right_eq_self,
    List.filter_eq_nil_iff]
  intro row hrow hdoc
  obtain ⟨hseq, c, hc, hat, hbranch⟩ :=
    (hlater.sound hs).rowCommit row (hrows ▸ List.mem_append_right _ hrow)
  obtain rfl : row.doc = doc := by simpa using hdoc
  exact hothers c hc (hat ▸ hseq ▸ hnew row hrow) hbranch

theorem default_apart_from_fork :
    (patchedFork shared).1.documentAt onDefault none = .ok (some shared) := by
  obtain ⟨_, _, _, _, _, hb, _, _, hseq, hothers, _, _, hread, _⟩ := fork_runs
  exact branches_isolated fork_patched.1 fork_patched.2 hb hseq hothers hread

/-- A branch that has no row of a document shows what its parent held at the fork. -/
theorem documentAt_inherited (hs : s.Sound) (hb : s.selectBranch doc.branch = some b)
    {parent : BranchName} (hparent : b.parentBranch = some parent) (hrows : s.rowsOf doc = [])
    {seq? : Option Nat} (hrange : InRange b (seq?.getD b.headSeq))
    (hfork : b.forkSeq.getD 0 ≤ seq?.getD b.headSeq) :
    s.documentAt doc seq? =
      s.documentAt ⟨parent, doc.id, doc.scopeKey⟩ (some (b.forkSeq.getD 0)) := by
  rw [documentAt, readRowForBranch_eq hs hb]
  dsimp only
  rw [if_pos (show _ ∧ _ from hrange), rowsThrough, hrows, List.filter_nil, List.getLast?_nil,
    inheritedRow_eq hs.toBranchesSound (selectBranch_mem hb).1 hparent, Nat.min_eq_right hfork,
    documentAt]

/-- A fork shows what its parent showed as the fork was made, until it has a row of its own. -/
theorem fork_is_snapshot (hreach : Reachable opens s) {parent : Option BranchName}
    {forkSeq seq? : Option Nat} (hnew : s.selectBranch doc.branch = none)
    (hcreate : s.createBranch doc.branch parent forkSeq = .ok s') {p : BranchState}
    (hp : s.selectBranch (parent.getD DEFAULT_BRANCH) = some p)
    (hseq : forkSeq.getD p.headSeq ≤ s.serverSeq) (hlater : Later opens s' t)
    (hrows : t.rowsOf doc = []) (hb : t.selectBranch doc.branch = some b)
    (hrange : InRange b (seq?.getD b.headSeq))
    (h : s.documentAt ⟨parent.getD DEFAULT_BRANCH, doc.id, doc.scopeKey⟩ forkSeq = .ok d) :
    t.documentAt doc seq? = .ok d := by
  have hs := hreach.sound
  have hstep : Step opens s s' := .createBranch hcreate
  have hs' := hstep.sound hs
  have hname : doc.branch ≠ DEFAULT_BRANCH := by
    intro heq
    rw [heq] at hnew
    simp [createBranch, heq, requireBranch, hnew] at hcreate
  have hfork : s'.selectBranch doc.branch = some ⟨doc.branch, some p.name,
      some (forkSeq.getD p.headSeq), forkSeq.getD p.headSeq, forkSeq.getD p.headSeq, true⟩ := by
    simp only [createBranch, hname, hnew, requireBranch_ok_iff.2 hp, Except.ok_bind, if_false,
      Except.ok.injEq] at hcreate
    rw [selectBranch] at hnew
    rw [← hcreate, selectBranch, List.find?_append, hnew]
    simp
  obtain ⟨headSeq, active, _, hb'⟩ := (hlater.branchesStay hs').2 hfork
  rw [hb] at hb'
  cases hb'
  have hfrom : forkSeq.getD p.headSeq ≤ seq?.getD headSeq := by
    simpa [minSeq, hname] using hrange.1
  rw [documentAt_inherited (hlater.sound hs') hb rfl hrows hrange hfrom, (selectBranch_mem hp).2]
  refine Later.documentAt (.head hstep hlater) hs hseq ?_
  rw [← h, documentAt, readRowForBranch_eq hs hp, documentAt, readRowForBranch_eq hs hp]
  rfl

/-- The fork shows the document that was deleted since on the branch it was forked from. -/
theorem fork_keeps_deleted :
    forkedSince.documentAt forkDoc none = .ok (some shared) ∧
      forkedSince.documentAt onDefault none = .ok none := by
  obtain ⟨_, hcreate, _, hnew, hp, _, _, hseq, _, _, _, hread, _⟩ := fork_runs
  obtain ⟨_, hb, hrows, hdeleted, _⟩ := since_runs
  exact ⟨fork_is_snapshot inherited_reachable hnew hcreate hp hseq fork_since hrows hb
    ⟨show 1 ≤ 3 by omega, le_refl 3⟩ hread, hdeleted⟩

theorem Step.cid_stands (hreach : Reachable opens s) (hstep : Step opens s s')
    (hcid : isContentAddressed doc.id = true) {value : EntityDocument}
    (h : s.documentAt doc none = .ok (some value)) : s'.documentAt doc none = .ok (some value) := by
  have hs := hreach.sound
  have hlater : Later opens s s' := .single hstep
  -- A row of the document comes only where the branch shows none.
  have hrows : s'.rowsOf doc = s.rowsOf doc := by
    obtain ⟨e, o, sessionKey, a, t, r, ha, hrows, _⟩ | ⟨hrows, _⟩ := hstep.logged hs
    · rw [rowsOf, rowsOf, hrows, ha.effect.revisions, List.filter_append, List.append_right_eq_self,
        List.filter_eq_nil_iff]
      intro row hrow hdoc
      obtain ⟨x, hx, rfl⟩ := List.mem_map.1 hrow
      obtain rfl : x.row.doc = doc := by simpa using hdoc
      have hfresh := (ha.cidRow hx hcid).fresh
      rw [h] at hfresh
      cases hfresh
    · rw [rowsOf, hrows, rowsOf]
  obtain ⟨b, hb⟩ := selectBranch_of_documentAt h
  exact hlater.unwritten hs hb (hreach.aheadUnread.documentAt hs hb hcid h) hrows h

/-- What a branch shows of a `cid:` document it shows ever after. -/
theorem cid_documents_stand (hreach : Reachable opens s) (hlater : Later opens s s')
    (hcid : isContentAddressed doc.id = true) {value : EntityDocument}
    (h : s.documentAt doc none = .ok (some value)) : s'.documentAt doc none = .ok (some value) := by
  induction hlater with
  | refl => exact h
  | tail hrun hstep ih => exact hstep.cid_stands (hreach.trans hrun) hcid ih

theorem content_runs :
    applyCommits (bareEngine 0 0) .empty contentHistory = .ok contentStore ∧
    applyCommitTransaction (bareEngine 0 0) contentStore setBeside =
      .ok (applied (bareEngine 0 0) contentStore setBeside) ∧
    isContentAddressed "cid:" = true ∧
    contentStore.documentAt ⟨"", "cid:", DEFAULT_SCOPE_KEY⟩ none =
      .ok (some ⟨[("value", .null)]⟩) := by
  decide +kernel

theorem content_reachable : Reachable (fun _ => True) contentStore :=
  Later.of_applyCommits (e := bareEngine 0 0) trivial _ content_runs.1

theorem cid_document_set_again :
    (applied (bareEngine 0 0) contentStore setBeside).1.documentAt
      ⟨DEFAULT_BRANCH, "cid:", DEFAULT_SCOPE_KEY⟩ none = .ok (some ⟨[("value", .null)]⟩) := by
  obtain ⟨_, hset, hcid, hread⟩ := content_runs
  exact cid_documents_stand content_reachable (.single (.commit trivial hset)) hcid hread

theorem Reachable.seqs (hreach : Reachable opens s) :
    s.commits.map (·.seq) = List.range' 1 s.commits.length ∧ s.serverSeq = s.commits.length := by
  induction hreach with
  | refl => exact ⟨rfl, rfl⟩
  | tail hrun hstep ih =>
    obtain ⟨hseqs, hserver⟩ := ih
    obtain ⟨_, o, sessionKey, a, _, r, ha, _, hcommits⟩ | ⟨_, hcommits⟩ :=
      hstep.logged (Reachable.sound hrun)
    · rw [serverSeq, hcommits, ha.effect.commits, List.map_append, List.foldl_append, ← serverSeq,
        hseqs, hserver, List.length_append, List.length_singleton, List.range'_concat]
      simp [finalRow, commitRow, nextSeq, hserver, Nat.add_comm]
    · rw [serverSeq, hcommits]
      exact ⟨hseqs, hserver⟩

/-- The seqs of the log have no gap, what a session has committed is in it once, and each row is of
a commit on its branch. -/
theorem log_integrity (hreach : Reachable opens s) :
    s.commits.map (·.seq) = List.range' 1 s.commits.length ∧
      (∀ c ∈ s.commits, ∀ d ∈ s.commits, c.sessionId = d.sessionId → c.localSeq = d.localSeq →
        c = d) ∧
      ∀ row ∈ s.revisions, row.commitSeq = row.seq ∧
        ∃ c ∈ s.commits, c.seq = row.seq ∧ c.branch = row.doc.branch := by
  refine ⟨hreach.seqs.1, fun c hc d hd hsession hlocal => ?_, hreach.sound.rowCommit⟩
  rcases Query.eq_or_related_of_pairwise hreach.sound.sessions hc hd with heq | hno | hno
  · exact heq
  · exact absurd ⟨hsession, hlocal⟩ hno
  · exact absurd ⟨hsession.symm, hlocal.symm⟩ hno

/-- Two sessions and two branches, and the sessions count their commits alike. -/
theorem log_integrity_since :
    forkedSince.commits.map (fun c => (c.branch, c.sessionId, c.localSeq)) = callersSince ∧
      forkedSince.commits.map (·.seq) = List.range' 1 forkedSince.commits.length ∧
      (∀ c ∈ forkedSince.commits, ∀ d ∈ forkedSince.commits, c.sessionId = d.sessionId →
        c.localSeq = d.localSeq → c = d) ∧
      ∀ row ∈ forkedSince.revisions, row.commitSeq = row.seq ∧
        ∃ c ∈ forkedSince.commits, c.seq = row.seq ∧ c.branch = row.doc.branch :=
  ⟨since_runs.2.2.2.2, log_integrity (fork_patched.1.trans fork_since)⟩

end Store
