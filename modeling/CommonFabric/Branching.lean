import CommonFabric.History

/-!
# Patches on a branch

A branch shows the documents of its parent as of the fork until it has rows of its own.
A patch row of the branch is then replayed over the branch's own rows alone, so the
first patch of an inherited document is applied to the empty document, not to the one
the branch showed.
-/

namespace Store

variable {s s' : Store} {doc : DocInstance}

def IsParent (s : Store) (p branch : BranchName) : Prop :=
  ∃ state, s.selectBranch branch = some state ∧ state.parentBranch = some p

/-- The branches a branch inherits from. -/
def Ancestor (s : Store) : BranchName → BranchName → Prop := Relation.TransGen s.IsParent

/-- A branch's ancestors stand before it. -/
theorem Ancestor.before (hs : s.BranchesSound) {a branch : BranchName} (h : s.Ancestor a branch) :
    ∀ {older newer : List BranchState} {b : BranchState}, s.branches = older ++ b :: newer →
      b.name = branch → ∃ x ∈ older, x.name = a := by
  have hparent : ∀ {p branch : BranchName}, s.IsParent p branch →
      ∀ (older newer : List BranchState) {b : BranchState}, s.branches = older ++ b :: newer →
        b.name = branch → ∃ x ∈ older, x.name = p := by
    rintro p _ ⟨state, hsel, hp⟩ older newer b hsplit rfl
    have hb := selectBranch_of_mem hs (b := b) (by rw [hsplit]; simp)
    rw [hb] at hsel
    cases hsel
    exact hs.parents _ _ _ hsplit p hp
  induction h using Relation.TransGen.head_induction_on with
  | single h => exact fun {older newer b} => hparent h older newer
  | head h _ ih =>
    intro older newer b hsplit hname
    obtain ⟨x, hx, hxname⟩ := ih hsplit hname
    obtain ⟨older', rest, rfl⟩ := List.append_of_mem hx
    obtain ⟨y, hy, hyname⟩ := hparent h older' (rest ++ b :: newer)
      (by rw [hsplit, List.append_assoc, List.cons_append]) hxname
    exact ⟨y, List.mem_append_left _ hy, hyname⟩

/-- No branch is its own ancestor. -/
theorem Ancestor.ne (hs : s.BranchesSound) {a branch : BranchName} (h : s.Ancestor a branch) :
    a ≠ branch := by
  rintro rfl
  have hbranch : ∃ b ∈ s.branches, b.name = a := by
    obtain ⟨_, _, state, hsel, _⟩ := Relation.TransGen.tail'_iff.1 h
    exact ⟨state, selectBranch_mem hsel⟩
  obtain ⟨b, hb, hname⟩ := hbranch
  obtain ⟨older, newer, hsplit⟩ := List.append_of_mem hb
  obtain ⟨x, hx, hxname⟩ := h.before hs hsplit hname
  have := (List.pairwise_append.1 (hsplit ▸ hs.names)).2.2 x hx b List.mem_cons_self
  exact this (hxname.trans hname.symm)

theorem Ancestor.parent {a p branch : BranchName} (h : s.Ancestor a branch)
    (hp : s.IsParent p a) : s.Ancestor p branch := Relation.TransGen.head hp h

/-- A read sees only the branches it passes through. -/
theorem readRowFrom_frame (P : BranchName → Prop)
    (hclosed : ∀ a p, P a → s.IsParent p a → P p)
    (hbranch : ∀ a, P a → s'.selectBranch a = s.selectBranch a)
    (hcurrent : ∀ a id key, P a →
      s'.selectCurrentLocal ⟨a, id, key⟩ = s.selectCurrentLocal ⟨a, id, key⟩)
    (hatSeq : ∀ a id key seq, P a →
      s'.selectAtSeqLocal ⟨a, id, key⟩ seq = s.selectAtSeqLocal ⟨a, id, key⟩ seq)
    (id : EntityId) (key : ScopeKey) : ∀ (n : Nat) (a : BranchName) (seq? : Option Nat), P a →
      s'.readRowFrom id key n a seq? = s.readRowFrom id key n a seq? := by
  intro n
  induction n with
  | zero => intro a seq? _; rfl
  | succ n ih =>
    intro a seq? ha
    simp only [readRowFrom, requireBranch, hbranch a ha]
    cases hb : s.selectBranch a with
    | none => rfl
    | some state =>
      simp only [Except.ok_bind, hcurrent a id key ha, hatSeq a id key _ ha]
      congr 1
      funext _
      generalize (if seq?.getD state.headSeq = state.headSeq then s.selectCurrentLocal ⟨a, id, key⟩
        else s.selectAtSeqLocal ⟨a, id, key⟩ (seq?.getD state.headSeq)) = current
      cases current with
      | some row => rfl
      | none =>
        cases hp : state.parentBranch with
        | none => rfl
        | some p => exact ih p _ (hclosed a p ha ⟨state, hb, hp⟩)

/-- What a commit on a branch leaves of the store, as another branch sees it. -/
structure WroteOn (s s' : Store) (branch : BranchName) : Prop where
  revisions : ∃ rows, s'.revisions = s.revisions ++ rows ∧ ∀ r ∈ rows, r.doc.branch = branch
  branches : ∀ a, a ≠ branch → s'.selectBranch a = s.selectBranch a
  count : s'.branches.length = s.branches.length

theorem WroteOn.rowsOf (h : WroteOn s s' doc.branch) {other : DocInstance}
    (hne : other.branch ≠ doc.branch) : s'.rowsOf other = s.rowsOf other := by
  obtain ⟨rows, hrows, hbranch⟩ := h.revisions
  rw [Store.rowsOf, Store.rowsOf, hrows, List.filter_append, List.append_right_eq_self,
    List.filter_eq_nil_iff]
  intro r hr
  have := hbranch r hr
  simp only [decide_eq_true_eq]
  rintro rfl
  exact hne this

/-- One row is decoded over the same rows before and after. -/
theorem documentAt_of_readRow (hs : s.Sound) (hs' : s'.Sound) (hpre : s.revisions <+: s'.revisions)
    {seq? seq?' : Option Nat} {row? : Option RevisionRow}
    (h : s.readRowForBranch doc seq? = .ok row?) (h' : s'.readRowForBranch doc seq?' = .ok row?) :
    s'.documentAt doc seq?' = s.documentAt doc seq? := by
  simp only [documentAt, h, h', Except.ok_bind]
  cases row? with
  | none => rfl
  | some row =>
    obtain ⟨hmem, _, _, hlast⟩ := readRowFrom_last hs.ascending hs.heads h
    obtain ⟨hmem', _, _, hlast'⟩ := readRowFrom_last hs'.ascending hs'.heads h'
    dsimp only
    rw [rowDocument_eq hs'.ascending hs'.snapshots (noCache_sound s') hmem' hlast',
      rowDocument_eq hs.ascending hs.snapshots (noCache_sound s) hmem hlast,
      rowsUpTo_initial hs'.ascending hpre hmem]

theorem WroteOn.readRow_ancestor (hs : s.Sound) (hs' : s'.Sound)
    (h : WroteOn s s' doc.branch) {a : BranchName} (ha : s.Ancestor a doc.branch) (id : EntityId)
    (key : ScopeKey) (seq? : Option Nat) :
    s'.readRowForBranch ⟨a, id, key⟩ seq? = s.readRowForBranch ⟨a, id, key⟩ seq? := by
  have hne : ∀ a, s.Ancestor a doc.branch → a ≠ doc.branch := fun a ha => ha.ne hs.toBranchesSound
  simp only [readRowForBranch, h.count]
  refine readRowFrom_frame (fun a => s.Ancestor a doc.branch) (fun a p ha hp => ha.parent hp)
    (fun a ha => h.branches a (hne a ha)) ?_ ?_ id key _ a seq? ha
  · intro a id key ha
    rw [selectCurrentLocal_eq hs'.ascending hs'.heads, selectCurrentLocal_eq hs.ascending hs.heads,
      h.rowsOf (hne a ha)]
  · intro a id key seq ha
    rw [selectAtSeqLocal, selectAtSeqLocal, h.rowsOf (hne a ha)]

/-- A read of an ancestor does not see what was written below it. -/
theorem WroteOn.readDocument_ancestor (hs : s.Sound) (hs' : s'.Sound)
    (h : WroteOn s s' doc.branch) {a : BranchName} (ha : s.Ancestor a doc.branch) (id : EntityId)
    (key : ScopeKey) (seq? : Option Nat) :
    s'.documentAt ⟨a, id, key⟩ seq? = s.documentAt ⟨a, id, key⟩ seq? := by
  have hrow := h.readRow_ancestor hs hs' ha id key seq?
  cases hread : s.readRowForBranch ⟨a, id, key⟩ seq? with
  | error e => simp only [documentAt, hrow, hread]; rfl
  | ok row? =>
    obtain ⟨rows, hrows, _⟩ := h.revisions
    exact documentAt_of_readRow hs hs' ⟨rows, hrows.symm⟩ hread (hrow.trans hread)

/-- A branch that holds rows of an instance reads their replay at its head. -/
theorem documentAt_own (hs : s.Sound) (hrows : s.rowsOf doc ≠ []) :
    s.documentAt doc none = replayRows (s.rowsOf doc) := by
  obtain ⟨r, hr⟩ := List.exists_mem_of_ne_nil _ hrows
  obtain ⟨hmem, hdoc⟩ := mem_rowsOf.1 hr
  obtain ⟨_, c, hc, _, hbranch⟩ := hs.rowCommit r hmem
  obtain ⟨b, hb, hname, _⟩ := hs.commitHeads c hc
  have hsel : s.selectBranch doc.branch = some b := by
    rw [← hdoc, ← hbranch, ← hname]; exact selectBranch_of_mem hs.toBranchesSound hb
  have hhead := rowsThrough_head hs hsel
  rw [documentAt_eq hs hsel none (hs.head_inRange hsel) (.inl (by rw [Option.getD_none, hhead]; exact hrows)),
    Option.getD_none, hhead]

end Store

namespace Commit

open Store

variable {e : Engine} {s s' : Store} {o : ApplyCommitOptions} {sessionKey : JsString}
  {a : Admission} {r : AppliedCommit}

theorem Effect.wroteOn (h : Effect s s' o sessionKey a r) : WroteOn s s' o.branch where
  revisions := by
    refine ⟨_, h.revisions, fun x hx => ?_⟩
    obtain ⟨y, hy, rfl⟩ := List.mem_map.1 hx
    exact (h.ofRow y hy).1
  branches := by
    intro a ha
    rw [selectBranch, selectBranch, h.branches, List.find?_map]
    have hsame : ((fun b : BranchState => decide (b.name = a)) ∘ raised o.branch s.nextSeq) =
        fun b => decide (b.name = a) := by
      funext b
      simp only [Function.comp, (raised_spec o.branch s.nextSeq b).1]
    rw [hsame]
    cases hfind : s.branches.find? (·.name = a) with
    | none => rfl
    | some b =>
      have hname : b.name = a := by simpa using List.find?_some hfind
      simp [raised, hname, ha]
  count := by rw [h.branches, List.length_map]

/-- The rows of an instance after a commit. -/
theorem Effect.rowsOf (h : Effect s s' o sessionKey a r) (doc : DocInstance) :
    s'.rowsOf doc = s.rowsOf doc ++ (rowsOfRevisions r.revisions).filter (·.doc = doc) := by
  rw [Store.rowsOf, h.revisions, List.filter_append]
  rfl

end Commit

namespace Branching

open Store

variable {opens : Engine → Prop} {e : Engine} {s s' : Store} {o : ApplyCommitOptions}
  {r : AppliedCommit} {doc : DocInstance} {row : RevisionRow} {before : Option EntityDocument}

/-- The patches a commit stored of an instance, in order. -/
def patchesOn (revisions : List AppliedRevision) (doc : DocInstance) : List (List PatchOp) :=
  ((rowsOfRevisions revisions).filter (·.doc = doc)).map storedPatchList

/-- `applyPatch` of each of the patches, one after another. -/
def applyPatches (document : Option EntityDocument) (patches : List (List PatchOp)) :
    Except EngineError (Option EntityDocument) := patches.foldlM applyRevision document

/-- What a patch commit that builds on an inherited document does: the branch reads the
inherited document patched, later reads replay later rows over that, and no ancestor
sees any of it. -/
structure BuildsOnInherited (opens : Engine → Prop) (s s' : Store) (doc : DocInstance)
    (before : Option EntityDocument) (patches : List (List PatchOp)) : Prop where
  after : s'.documentAt doc none = applyPatches before patches
  later : ∀ s'', Later opens s' s'' → ∃ newer, s''.rowsOf doc = s'.rowsOf doc ++ newer ∧
    s''.documentAt doc none =
      ReplayLog.replay applyRevision (applyPatches before patches) (newer.map (·.data.entry))
  ancestors : ∀ a, s.Ancestor a doc.branch → ∀ seq?,
    s'.documentAt ⟨a, doc.id, doc.scopeKey⟩ seq? = s.documentAt ⟨a, doc.id, doc.scopeKey⟩ seq?

theorem rowsOf_nil_of_inherited (hs : s.Sound)
    (h : s.readRowForBranch doc none = .ok (some row)) (hne : row.doc.branch ≠ doc.branch) :
    s.rowsOf doc = [] := by
  by_contra hrows
  obtain ⟨x, hx⟩ := List.exists_mem_of_ne_nil _ hrows
  obtain ⟨hmem, hdoc⟩ := mem_rowsOf.1 hx
  obtain ⟨_, c, hc, _, hbranch⟩ := hs.rowCommit x hmem
  obtain ⟨b, hb, hname, _⟩ := hs.commitHeads c hc
  have hsel : s.selectBranch doc.branch = some b := by
    rw [← hdoc, ← hbranch, ← hname]; exact selectBranch_of_mem hs.toBranchesSound hb
  rw [readRowForBranch_eq hs hsel] at h
  simp only [Option.getD_none] at h
  rw [if_pos (show _ ∧ _ from hs.head_inRange hsel), rowsThrough_head hs hsel] at h
  cases hlast : (s.rowsOf doc).getLast? with
  | none => exact hrows (List.getLast?_eq_none_iff.1 hlast)
  | some last =>
    rw [hlast] at h
    cases h
    exact hne (by rw [(mem_rowsOf.1 (List.mem_of_getLast? hlast)).2])

/-- The replay of patch rows alone applies their patches to the empty document. -/
theorem replayRows_patches {rows : List RevisionRow} (h : ∀ x ∈ rows, x.data.isPatch = true) :
    replayRows rows = applyPatches none (rows.map storedPatchList) := by
  rw [replayRows, map_entry_of_patches h, ReplayLog.replay_changes, applyPatches]

/-- A patch commit builds on an inherited document exactly when its patches make of the
empty document what they make of the inherited one. -/
theorem builds_on_inherited_iff (hreach : Reachable opens s)
    (h : Commit.applyCommitTransaction e s o = .ok (s', r)) (hfresh : r.replayed = false)
    (hbranch : doc.branch = o.branch) (hinherited : s.readRowForBranch doc none = .ok (some row))
    (hrow : row.doc.branch ≠ doc.branch)
    (hpatch : ∀ x ∈ r.revisions, x.row.doc = doc → x.row.data.isPatch = true)
    (hsome : ∃ x ∈ r.revisions, x.row.doc = doc) :
    BuildsOnInherited opens s s' doc before (patchesOn r.revisions doc) ↔
      applyPatches none (patchesOn r.revisions doc) =
        applyPatches before (patchesOn r.revisions doc) := by
  have hs := hreach.sound
  obtain ⟨sessionKey, _, ⟨_, hreplayed⟩ | ⟨a, ha⟩⟩ := Commit.applyCommitTransaction_cases hs h
  · rw [hreplayed] at hfresh; cases hfresh
  have hwrote : WroteOn s s' doc.branch := hbranch ▸ ha.effect.wroteOn
  have hrows : s'.rowsOf doc = (rowsOfRevisions r.revisions).filter (·.doc = doc) := by
    rw [ha.effect.rowsOf, rowsOf_nil_of_inherited hs hinherited hrow, List.nil_append]
  have hne : s'.rowsOf doc ≠ [] := by
    obtain ⟨x, hx, hdoc⟩ := hsome
    exact List.ne_nil_of_mem (hrows ▸ List.mem_filter.2
      ⟨List.mem_map.2 ⟨x, hx, rfl⟩, by simpa using hdoc⟩)
  have hreplay : replayRows (s'.rowsOf doc) = applyPatches none (patchesOn r.revisions doc) := by
    rw [hrows]
    refine replayRows_patches fun y hy => ?_
    obtain ⟨hy, hdoc⟩ := List.mem_filter.1 hy
    obtain ⟨x, hx, rfl⟩ := List.mem_map.1 hy
    exact hpatch x hx (by simpa using hdoc)
  have hafter := documentAt_own ha.sound hne
  constructor
  · intro hbuilds
    rw [← hreplay, ← hafter, hbuilds.after]
  · intro hsame
    refine ⟨by rw [hafter, hreplay, hsame], fun s'' hlater => ?_, fun a hanc seq? =>
      hwrote.readDocument_ancestor hs ha.sound hanc doc.id doc.scopeKey seq?⟩
    obtain ⟨more, hmore⟩ := hlater.revisions ha.sound
    have hsplit : s''.rowsOf doc = s'.rowsOf doc ++ more.filter (·.doc = doc) := by
      rw [Store.rowsOf, ← hmore, List.filter_append]; rfl
    refine ⟨_, hsplit, ?_⟩
    rw [documentAt_own (hlater.sound ha.sound) (by rw [hsplit]; simp [hne]), hsplit, replayRows,
      List.map_append, ReplayLog.replay_append, ← replayRows, hreplay, hsame]

/-- The default branch with one document. -/
def inheritedHistory (document : EntityDocument) : List ApplyCommitOptions :=
  [.authored "s" (.ofOperations 1 [.set "of:d" none document])]

def inheritedStore (document : EntityDocument) : Store :=
  storeAfter (bareEngine 0 0) (inheritedHistory document)

/-- A branch forked at its head. -/
def forkedStore (document : EntityDocument) : Store :=
  (((inheritedStore document).createBranch "b" none none).toOption).getD .empty

/-- A commit on the branch that adds a member to the document. -/
def patchOnBranch : ApplyCommitOptions :=
  .authored "s" { ClientCommit.ofOperations 2 [.patch "of:d" none [.add "/value/b" .null]] with
    branch := some "b" }

def patchedFork (document : EntityDocument) : Store × AppliedCommit :=
  applied (bareEngine 0 0) (forkedStore document) patchOnBranch

theorem forkedStore_reachable (document : EntityDocument)
    (hcommit : applyCommits (bareEngine 0 0) .empty (inheritedHistory document) =
      .ok (inheritedStore document))
    (hbranch : (inheritedStore document).createBranch "b" none none =
      .ok (forkedStore document)) : Reachable (fun _ => True) (forkedStore document) :=
  Relation.ReflTransGen.tail (Later.of_applyCommits trivial _ hcommit) (.createBranch hbranch)

def forkDoc : DocInstance := ⟨"b", "of:d", DEFAULT_SCOPE_KEY⟩

/-- The first patch of an inherited document on a branch drops what the branch inherited. -/
theorem patch_drops_inherited :
    Reachable (fun _ => True) (forkedStore ⟨[("value", .record [("a", .null)])]⟩) ∧
    Commit.applyCommitTransaction (bareEngine 0 0)
        (forkedStore ⟨[("value", .record [("a", .null)])]⟩) patchOnBranch =
      .ok (patchedFork ⟨[("value", .record [("a", .null)])]⟩) ∧
    (forkedStore ⟨[("value", .record [("a", .null)])]⟩).documentAt forkDoc none =
      .ok (some ⟨[("value", .record [("a", .null)])]⟩) ∧
    applyPatches (some ⟨[("value", .record [("a", .null)])]⟩) [[.add "/value/b" .null]] =
      .ok (some ⟨[("value", .record [("a", .null), ("b", .null)])]⟩) ∧
    (patchedFork ⟨[("value", .record [("a", .null)])]⟩).1.documentAt forkDoc none =
      .ok (some ⟨[("value", .record [("b", .null)])]⟩) ∧
    ¬ BuildsOnInherited (fun _ => True) (forkedStore ⟨[("value", .record [("a", .null)])]⟩)
      (patchedFork ⟨[("value", .record [("a", .null)])]⟩).1 forkDoc
      (some ⟨[("value", .record [("a", .null)])]⟩) [[.add "/value/b" .null]] := by
  refine ⟨forkedStore_reachable _ (by decide +kernel) (by decide +kernel), by decide +kernel,
    by decide +kernel, by decide +kernel, by decide +kernel, fun hbuilds => ?_⟩
  exact absurd hbuilds.after (by decide +kernel)

/-- A commit on the branch that replaces a member of the document. -/
def replaceOnBranch : ApplyCommitOptions :=
  .authored "s" { ClientCommit.ofOperations 2 [.patch "of:d" none [.replace "/value" (.bool true)]]
    with branch := some "b" }

def replacedFork (document : EntityDocument) : Store × AppliedCommit :=
  applied (bareEngine 0 0) (forkedStore document) replaceOnBranch

/-- A patch that replaces the one member of the inherited document builds on it. -/
theorem builds_on_inherited_iff_replaced :
    BuildsOnInherited (fun _ => True) (forkedStore ⟨[("value", .null)]⟩)
        (replacedFork ⟨[("value", .null)]⟩).1 forkDoc (some ⟨[("value", .null)]⟩)
        (patchesOn (replacedFork ⟨[("value", .null)]⟩).2.revisions forkDoc) := by
  have hinherited : (forkedStore ⟨[("value", .null)]⟩).readRowForBranch forkDoc none =
      .ok (some ⟨⟨DEFAULT_BRANCH, "of:d", DEFAULT_SCOPE_KEY⟩, 1, 0, .set ⟨[("value", .null)]⟩,
        1⟩) := by decide +kernel
  exact (builds_on_inherited_iff (e := bareEngine 0 0) (o := replaceOnBranch)
    (forkedStore_reachable _ (by decide +kernel) (by decide +kernel)) (by decide +kernel)
    (by decide +kernel) (by decide +kernel) hinherited (by decide +kernel)
    (by decide +kernel) (by decide +kernel)).2 (by decide +kernel)

end Branching

namespace Store

variable {s s' : Store} {doc : DocInstance} {row : RevisionRow} {opens : Engine → Prop}

/-- Every row is written at a seq above zero. -/
theorem Later.seq_pos (h : Later opens s s') (hs : s.Sound) (hpos : ∀ r ∈ s.revisions, 0 < r.seq) :
    ∀ r ∈ s'.revisions, 0 < r.seq := by
  induction h with
  | refl => exact hpos
  | tail hrun hstep ih =>
    obtain ⟨rows, hrows, hseq⟩ := hstep.revisions (Later.sound hrun hs)
    intro r hr
    rw [hrows] at hr
    cases List.mem_append.1 hr with
    | inl hold => exact ih r hold
    | inr hnew =>
      rw [hseq r hnew]
      exact Nat.succ_pos _

theorem Reachable.seq_pos (h : Reachable opens s) : ∀ r ∈ s.revisions, 0 < r.seq :=
  Later.seq_pos h empty_sound (by intro r hr; cases hr)

/-- A patch row that does not apply to what the rows before it leave. -/
def Misapplied (s : Store) (row : RevisionRow) : Prop :=
  row.data.isPatch = true ∧
    ∃ refusal, replayRows (s.rowsUpTo row.doc row.position) = .error refusal

/-- The rows up to a row leave a document, unless it is a delete or a misapplied patch. -/
theorem leaves_document_iff (hasc : s.RowsAscending) (hrow : row ∈ s.revisions) :
    (∃ document, replayRows (s.rowsUpTo row.doc row.position) = .ok (some document)) ↔
      ¬(row.data = .delete ∨ s.Misapplied row) := by
  obtain ⟨older, holder⟩ := rowsUpTo_concat hasc hrow
  rw [Misapplied, holder]
  cases hdata : row.data with
  | set d => simp [replayRows_concat_set older row hdata, RevisionData.isPatch]
  | delete => simp [replayRows_concat_delete older row hdata]
  | patch patches =>
    rw [replayRows_concat, hdata]
    cases hbefore : replayRows older with
    | error refusal => simp [ReplayLog.step, RevisionData.entry, RevisionData.isPatch]
    | ok before =>
      simp only [ReplayLog.step, RevisionData.entry, applyRevision, RevisionData.isPatch]
      cases happly : liftPatch (applyPatchToDocument before patches) with
      | error refusal => simp [happly]
      | ok document => simp [happly]

/-- A document is read where the row that the read resolves to leaves one. -/
theorem documentAt_some_iff (hs : s.Sound) {seq? : Option Nat} :
    (∃ document, s.documentAt doc seq? = .ok (some document)) ↔
      ∃ row, s.readRowForBranch doc seq? = .ok (some row) ∧
        ¬(row.data = .delete ∨ s.Misapplied row) := by
  cases hread : s.readRowForBranch doc seq? with
  | error refusal => simp [documentAt, hread]
  | ok row? =>
    cases row? with
    | none => simp [documentAt, hread]
    | some row =>
      obtain ⟨hmem, _, _, hlast⟩ := readRowFrom_last hs.ascending hs.heads hread
      simp only [documentAt, hread, Except.ok_bind,
        rowDocument_eq hs.ascending hs.snapshots (noCache_sound s) hmem hlast]
      rw [leaves_document_iff hs.ascending hmem]
      simp

end Store

namespace Absence

open Store

variable {opens : Engine → Prop} {e : Engine} {s s' : Store} {o : ApplyCommitOptions}
  {r : AppliedCommit} {doc : DocInstance} {id : EntityId} {scope : Option CellScope}
  {scopeKey : ScopeKey}

/-- No document is readable at the head of the instance's branch. -/
def Absent (s : Store) (doc : DocInstance) : Prop :=
  ∀ document, s.documentAt doc none ≠ .ok (some document)

/-- The patches that the branch holds of the instance do not all apply, from no document on; or it
holds none, and the row it inherits of the instance, if any, is a delete or a misapplied patch. -/
structure NothingMade (s : Store) (doc : DocInstance) : Prop where
  patches : (s.rowsOf doc).filter (·.data.isPatch) ≠ [] → ∃ refusal, Branching.applyPatches none
    (((s.rowsOf doc).filter (·.data.isPatch)).map storedPatchList) = .error refusal
  inherited : (s.rowsOf doc).filter (·.data.isPatch) = [] → ∀ state row,
    s.selectBranch doc.branch = some state →
      s.inheritedRow doc state state.headSeq = .ok (some row) → row.data = .delete ∨ s.Misapplied row

/-- Patches that apply make a document. -/
theorem applyPatches_some {patches : List (List PatchOp)} (hne : patches ≠ []) :
    ∀ {d d' : Option EntityDocument}, Branching.applyPatches d patches = .ok d' →
      ∃ document, d' = some document := by
  induction patches with
  | nil => exact absurd rfl hne
  | cons ops patches ih =>
    intro d d' h
    obtain ⟨next, hstep, hrest⟩ := List.foldlM_cons_ok.1 h
    by_cases hlast : patches = []
    · subst hlast
      cases hrest
      unfold applyRevision at hstep
      cases hpatch : liftPatch (applyPatchToDocument d ops) with
      | error refusal => rw [hpatch] at hstep; cases hstep
      | ok document => rw [hpatch] at hstep; cases hstep; exact ⟨document, rfl⟩
    · exact ih hlast hrest

/-- A commit that is admitted with the precondition finds no set and no delete of the
instance on its branch. -/
theorem no_set_or_delete (hpos : ∀ x ∈ s.revisions, 0 < x.seq) {sessionKey : JsString}
    (h : Commit.validateCommitPreconditions e s sessionKey o = .ok ())
    (hpre : .entityAbsent id scope ∈ o.commit.preconditions)
    (hkey : resolveScopeKey scope o.session = .ok scopeKey) :
    ∀ x ∈ s.rowsOf ⟨o.branch, id, scopeKey⟩, x.data.isPatch = true := by
  intro x hx
  have hcheck := List.forM_ok_mem h hpre
  simp only [Commit.checkPrecondition, hkey, Except.ok_bind, require_ok_iff,
    selectSetDeleteConflict, Option.isNone_map, Option.isNone_iff_eq_none,
    Query.newest_eq_none_iff, List.filter_eq_nil_iff] at hcheck
  have hnone := hcheck x hx
  have hseq := hpos x (mem_rowsOf.1 hx).1
  simpa [hseq, notExcluded] using hnone

/-- A branch without rows of its own shows no document exactly when it inherits none. -/
theorem absent_of_inherited (hs : s.Sound) {state : BranchState}
    (hb : s.selectBranch doc.branch = some state) (hrows : s.rowsOf doc = []) :
    Absent s doc ↔ ∀ row, s.inheritedRow doc state state.headSeq = .ok (some row) →
      row.data = .delete ∨ s.Misapplied row := by
  have hread : s.readRowForBranch doc none = s.inheritedRow doc state state.headSeq := by
    rw [readRowForBranch_eq hs hb]
    dsimp only
    rw [Option.getD_none, if_pos (show _ ∧ _ from hs.head_inRange hb), rowsThrough_head hs hb, hrows]
    rfl
  have hdocument : (∃ document, s.documentAt doc none = .ok (some document)) ↔
      ∃ row, s.inheritedRow doc state state.headSeq = .ok (some row) ∧
        ¬(row.data = .delete ∨ s.Misapplied row) := by
    rw [← hread, ← documentAt_some_iff hs]
  constructor
  · intro hnone row hrow
    by_contra hsome
    obtain ⟨document, hmade⟩ := hdocument.2 ⟨row, hrow, hsome⟩
    exact hnone document hmade
  · intro hnothing document hmade
    obtain ⟨row, hrow, hsome⟩ := hdocument.1 ⟨document, hmade⟩
    exact hsome (hnothing row hrow)

/-- A branch whose rows are patches shows no document exactly when these do not all apply. -/
theorem absent_of_patches (hs : s.Sound) (hrows : s.rowsOf doc ≠ [])
    (hpatches : ∀ x ∈ s.rowsOf doc, x.data.isPatch = true) :
    Absent s doc ↔ ∃ refusal, Branching.applyPatches none
      ((s.rowsOf doc).map storedPatchList) = .error refusal := by
  have hread : s.documentAt doc none =
      Branching.applyPatches none ((s.rowsOf doc).map storedPatchList) := by
    rw [documentAt_own hs hrows, Branching.replayRows_patches hpatches]
  constructor
  · intro hnone
    cases hmade : Branching.applyPatches none ((s.rowsOf doc).map storedPatchList) with
    | error refusal => exact ⟨refusal, rfl⟩
    | ok made =>
      obtain ⟨document, rfl⟩ := applyPatches_some (mt List.map_eq_nil_iff.1 hrows) hmade
      exact absurd (hread.trans hmade) (hnone document)
  · rintro ⟨refusal, hrefused⟩ document hdocument
    rw [hread, hrefused] at hdocument
    cases hdocument

/-- Where all rows of the branch are patches, no document is readable exactly when they make none,
or none is inherited. -/
theorem absent_iff (hs : s.Sound) {state : BranchState} (hb : s.selectBranch doc.branch = some state)
    (hpatches : ∀ x ∈ s.rowsOf doc, x.data.isPatch = true) : Absent s doc ↔ NothingMade s doc := by
  have hfilter : (s.rowsOf doc).filter (·.data.isPatch) = s.rowsOf doc :=
    List.filter_eq_self.2 hpatches
  by_cases hrows : s.rowsOf doc = []
  · rw [absent_of_inherited hs hb hrows]
    constructor
    · refine fun hnone => ⟨fun hne => absurd (hfilter.trans hrows) hne, ?_⟩
      intro _ state' row hb' hrow
      obtain rfl : state = state' := Option.some.inj (hb.symm.trans hb')
      exact hnone row hrow
    · exact fun hnothing row hrow => hnothing.inherited (hfilter.trans hrows) state row hb hrow
  · rw [absent_of_patches hs hrows hpatches]
    constructor
    · exact fun hrefused => ⟨fun _ => hfilter.symm ▸ hrefused,
        fun hnil => absurd (hfilter.symm.trans hnil) hrows⟩
    · intro hnothing
      obtain ⟨refusal, hrefused⟩ := hnothing.patches (by rw [hfilter]; exact hrows)
      exact ⟨refusal, hfilter ▸ hrefused⟩

/-- A commit admitted with an entity-absent precondition is admitted over an absent entity
exactly when the branch's patches of it make no document, and it inherits none. -/
theorem entity_absent_iff (hreach : Reachable opens s)
    (h : Commit.applyCommitTransaction e s o = .ok (s', r)) (hfresh : r.replayed = false)
    (hpre : .entityAbsent id scope ∈ o.commit.preconditions)
    (hkey : resolveScopeKey scope o.session = .ok scopeKey) :
    Absent s ⟨o.branch, id, scopeKey⟩ ↔ NothingMade s ⟨o.branch, id, scopeKey⟩ := by
  have hs := hreach.sound
  obtain ⟨sessionKey, _, ⟨_, hreplayed⟩ | ⟨a, ha⟩⟩ := Commit.applyCommitTransaction_cases hs h
  · rw [hreplayed] at hfresh; cases hfresh
  obtain ⟨b, hmem, hname, _⟩ := ha.admitted.branch
  have hb : s.selectBranch o.branch = some b := by
    rw [← hname]; exact selectBranch_of_mem hs.toBranchesSound hmem
  exact absent_iff hs hb (no_set_or_delete hreach.seq_pos ha.admitted.preconditions hpre hkey)

/-- A patch of a document that does not exist. -/
def patchedHistory : List ApplyCommitOptions :=
  [.authored "s" (.ofOperations 1 [.patch "of:d" none [.add "/value" .null]])]

def patchedStore : Store := storeAfter (bareEngine 0 0) patchedHistory

theorem patchedStore_reachable : Reachable (fun _ => True) patchedStore :=
  Later.of_applyCommits (e := bareEngine 0 0) trivial patchedHistory (by decide +kernel)

/-- A commit that writes an entity it asks to be absent. -/
def receipt (id : EntityId) : ApplyCommitOptions :=
  .authored "t" { ClientCommit.ofOperations 1 [.set id none ⟨[]⟩] with
    preconditions := [.entityAbsent id none] }

def received (id : EntityId) : Store × AppliedCommit :=
  applied (bareEngine 0 0) patchedStore (receipt id)

/-- The commit is admitted over the document that the patch has made. -/
theorem entity_absent_over_patched :
    ¬∀ (s s' : Store) (o : ApplyCommitOptions) (r : AppliedCommit) (id : EntityId)
      (scope : Option CellScope) (scopeKey : ScopeKey), Reachable (fun _ => True) s →
      Commit.applyCommitTransaction (bareEngine 0 0) s o = .ok (s', r) → r.replayed = false →
      .entityAbsent id scope ∈ o.commit.preconditions →
      resolveScopeKey scope o.session = .ok scopeKey → Absent s ⟨o.branch, id, scopeKey⟩ := by
  intro hclaim
  exact hclaim patchedStore (received "of:d").1 (receipt "of:d") (received "of:d").2 "of:d" none
    DEFAULT_SCOPE_KEY patchedStore_reachable (by decide +kernel) (by decide +kernel)
    (List.mem_singleton_self _) (by decide +kernel) ⟨[("value", .null)]⟩ (by decide +kernel)

/-- A document deleted on the default branch, of which a branch is then forked. -/
def deletedHistory : List ApplyCommitOptions :=
  patchedHistory ++ [.authored "s" (.ofOperations 2 [.delete "of:d" none])]

def deletedStore : Store := storeAfter (bareEngine 0 0) deletedHistory

def deletedFork : Store := (deletedStore.createBranch "b" none none).toOption.getD .empty

/-- The branch inherits the delete, and a commit on it finds the entity absent. -/
theorem entity_absent_iff_inherited : Absent deletedFork Branching.forkDoc := by
  have hreach : Reachable (fun _ => True) deletedFork :=
    .tail (Later.of_applyCommits (e := bareEngine 0 0) trivial deletedHistory (by decide +kernel))
      (@Step.createBranch (fun _ => True) deletedStore "b" none none deletedFork (by decide +kernel))
  have hcommit : Commit.applyCommitTransaction (bareEngine 0 0) deletedFork
      { receipt "of:d" with commit := { (receipt "of:d").commit with branch := some "b" } } =
      .ok (applied (bareEngine 0 0) deletedFork
        { receipt "of:d" with commit := { (receipt "of:d").commit with branch := some "b" } }) := by
    decide +kernel
  refine (entity_absent_iff hreach hcommit (by decide +kernel) (List.mem_singleton_self _)
    (by decide +kernel)).2 ⟨fun hne => absurd (by decide +kernel) hne, fun _ state row hb hrow => ?_⟩
  have hbranch : deletedFork.selectBranch "b" = some ⟨"b", some "", some 2, 2, 2, true⟩ := by
    decide +kernel
  obtain rfl := Option.some.inj (hbranch.symm.trans hb)
  have hinherits : deletedFork.inheritedRow Branching.forkDoc ⟨"b", some "", some 2, 2, 2, true⟩ 2 =
      .ok (some ⟨⟨"", "of:d", DEFAULT_SCOPE_KEY⟩, 2, 0, .delete, 2⟩) := by decide +kernel
  cases hinherits.symm.trans hrow
  exact .inl rfl

end Absence
