import CommonFabric.Commit

/-!
# What the check of the reads has found

Reads that pass have no conflicting row after their basis: a confirmed read after its
seq, a pending read after the basis its layers are checked from. The scans carried from
one read to the next stay sound of the store.
-/

namespace Commit

open Store

variable {s : Store} {o : ApplyCommitOptions} {sessionKey : JsString} {branch : BranchName}
  {identity : ScopeKeyIdentity}

/-- The read's instance has no row after its seq that the read conflicts with. -/
def ConfirmedClear (s : Store) (branch : BranchName) (identity : ScopeKeyIdentity)
    (read : ConfirmedRead) : Prop :=
  ∃ scopeKey, resolveScopeKey read.scope identity = .ok scopeKey ∧
    s.ConflictFree ⟨read.branch.getD branch, read.id, scopeKey⟩ read.seq read.path
      read.nonRecursive none

theorem checkConfirmedRead_ok {st st' : ConfirmedState} {read : ConfirmedRead}
    (h : checkConfirmedRead s branch identity st read = .ok st') :
    (∃ more, st'.conflicts = st.conflicts ++ more) ∧
      (st'.conflicts = [] → st.stale = [] → s.ScansSound st.scans →
        st'.stale = [] ∧ s.ScansSound st'.scans ∧ ConfirmedClear s branch identity read) := by
  obtain ⟨_, _, h⟩ := Except.bind_ok_iff.1 h
  obtain ⟨scopeKey, hkey, h⟩ := Except.bind_ok_iff.1 h
  dsimp only at h
  split at h
  · rename_i hstale
    cases h
    refine ⟨⟨[], by simp⟩, fun _ hnil => ?_⟩
    rw [hnil] at hstale
    cases hstale
  · obtain ⟨⟨conflictSeq, scans⟩, hfind, h⟩ := Except.bind_ok_iff.1 h
    dsimp only at h
    split at h
    · cases h
      refine ⟨⟨[], by simp⟩, fun _ hnil hscans => ?_⟩
      obtain ⟨hscans', hfree⟩ := findConflictSeq_ok hscans hfind
      exact ⟨hnil, hscans', scopeKey, hkey, hfree rfl⟩
    · cases h
      exact ⟨⟨_, rfl⟩, fun hnil => by simp at hnil⟩

theorem checkConfirmedReads_ok {reads : List ConfirmedRead} {st st' : ConfirmedState}
    (h : reads.foldlM (checkConfirmedRead s branch identity) st = .ok st') :
    (∃ more, st'.conflicts = st.conflicts ++ more) ∧
      (st'.conflicts = [] → st.stale = [] → s.ScansSound st.scans →
        s.ScansSound st'.scans ∧ ∀ read ∈ reads, ConfirmedClear s branch identity read) := by
  induction reads generalizing st with
  | nil => cases h; exact ⟨⟨[], by simp⟩, fun _ _ hscans => ⟨hscans, by simp⟩⟩
  | cons read reads ih =>
    obtain ⟨st₁, hstep, h⟩ := List.foldlM_cons_ok.1 h
    obtain ⟨⟨more, hmore⟩, hread⟩ := checkConfirmedRead_ok hstep
    obtain ⟨⟨more', hmore'⟩, hrest⟩ := ih h
    refine ⟨⟨more ++ more', by rw [hmore', hmore, List.append_assoc]⟩, fun hnil hstale hscans => ?_⟩
    have hnil₁ : st₁.conflicts = [] := by
      rw [hmore'] at hnil
      exact (List.append_eq_nil_iff.1 hnil).1
    obtain ⟨hstale₁, hscans₁, hclear⟩ := hread hnil₁ hstale hscans
    obtain ⟨hscans', hclears⟩ := hrest hnil hstale₁ hscans₁
    refine ⟨hscans', fun read' hread' => ?_⟩
    rcases List.mem_cons.1 hread' with rfl | hread'
    · exact hclear
    · exact hclears read' hread'

theorem validateConfirmedReads_ok {scans : ConflictScans}
    (h : validateConfirmedReads s o = .ok scans) :
    s.ScansSound scans ∧ ∀ read ∈ o.commit.confirmed, ConfirmedClear s o.branch o.session read := by
  obtain ⟨st, hfold, h⟩ := Except.bind_ok_iff.1 h
  obtain ⟨hnil, h⟩ := Except.check_ok_iff.1 h
  simp only [require_ok_iff, decide_eq_true_eq] at hnil
  cases h
  exact (checkConfirmedReads_ok hfold).2 hnil rfl scansSound_nil

/-- The exclusion of a pending read's own layers. -/
def ownLayers (sessionKey : JsString) (read : PendingRead) : Option Store.ConflictExclusion :=
  some ⟨sessionKey, read.localSeq⟩

/-- The read's layers are accepted commits of its session, and with a basis its instance
has no row after it that the read conflicts with, the layers' own left out: none after
the basis, or none after its newest identity layer. -/
structure PendingClear (s : Store) (sessionKey : JsString) (branch : BranchName)
    (identity : ScopeKeyIdentity) (read : PendingRead) : Prop where
  layers : ∀ localSeq ∈ read.localSeq, (s.selectPendingResolution sessionKey localSeq).isSome = true
  basis : ∀ basisSeq, read.basisSeq = some basisSeq →
    ∃ scopeKey, resolveScopeKey read.scope identity = .ok scopeKey ∧
      (s.ConflictFree ⟨branch, read.id, scopeKey⟩ basisSeq read.path read.nonRecursive
          (ownLayers sessionKey read) ∨
        basisSeq < Identity.identityLayerBasis s sessionKey branch read basisSeq ∧
        s.ConflictFree ⟨branch, read.id, scopeKey⟩
          (Identity.identityLayerBasis s sessionKey branch read basisSeq) read.path
          read.nonRecursive (ownLayers sessionKey read))

/-- Each resolution found so far is of an accepted commit of the session. -/
def ResolutionsSound (s : Store) (sessionKey : JsString) (resolutions : List PendingResolution) :
    Prop :=
  ∀ r ∈ resolutions, s.selectPendingResolution sessionKey r.localSeq = some r.seq

theorem resolveLayers_ok {layers : List Int} : ∀ {resolutions resolutions' : List PendingResolution},
    resolveLayers s sessionKey resolutions layers = .ok resolutions' →
    ResolutionsSound s sessionKey resolutions →
    ResolutionsSound s sessionKey resolutions' ∧
      ∀ localSeq ∈ layers, (s.selectPendingResolution sessionKey localSeq).isSome = true := by
  induction layers with
  | nil => intro _ _ h hsound; cases h; exact ⟨hsound, by simp⟩
  | cons localSeq layers ih =>
    intro resolutions resolutions' h hsound
    rw [resolveLayers] at h
    split at h
    · rename_i hany
      obtain ⟨hsound', hrest⟩ := ih h hsound
      refine ⟨hsound', fun l hl => ?_⟩
      rcases List.mem_cons.1 hl with rfl | hl
      · obtain ⟨r, hr, heq⟩ := List.any_eq_true.1 hany
        obtain rfl : r.localSeq = l := by simpa using heq
        rw [hsound r hr]; rfl
      · exact hrest l hl
    · split at h
      · cases h
      · rename_i seq hseq
        obtain ⟨hsound', hrest⟩ := ih h (fun r hr => by
          rcases List.mem_append.1 hr with hr | hr
          · exact hsound r hr
          · obtain rfl := List.mem_singleton.1 hr; exact hseq)
        refine ⟨hsound', fun l hl => ?_⟩
        rcases List.mem_cons.1 hl with rfl | hl
        · rw [hseq]; rfl
        · exact hrest l hl

theorem pendingConflictSeq_none {scans scans' : ConflictScans} {doc : DocInstance}
    {read : PendingRead} {layerSeq : Nat} (hscans : s.ScansSound scans)
    (h : pendingConflictSeq s sessionKey scans doc read layerSeq = .ok (none, scans')) :
    s.ScansSound scans' ∧ ∀ basisSeq, read.basisSeq = some basisSeq →
      s.ConflictFree doc basisSeq read.path read.nonRecursive (ownLayers sessionKey read) ∨
        basisSeq < Identity.identityLayerBasis s sessionKey doc.branch read basisSeq ∧
        s.ConflictFree doc (Identity.identityLayerBasis s sessionKey doc.branch read basisSeq)
          read.path read.nonRecursive (ownLayers sessionKey read) := by
  unfold pendingConflictSeq at h
  split at h
  · rename_i hnone
    exact ⟨(findConflictSeq_ok hscans h).1, fun basisSeq hb => by rw [hnone] at hb; cases hb⟩
  · rename_i basisSeq hbasis
    obtain ⟨⟨conflictSeq, scans₁⟩, hfirst, h⟩ := Except.bind_ok_iff.1 h
    dsimp only at h
    split at h
    · rename_i hcond
      have hlt : basisSeq < Identity.identityLayerBasis s sessionKey doc.branch read basisSeq := by
        simp only [Bool.and_eq_true, decide_eq_true_eq] at hcond
        exact hcond.2
      -- The first scan found a conflict, and what it learned stays sound.
      have hscans₁ : s.ScansSound scans₁ := (findConflictSeq_ok hscans hfirst).1
      obtain ⟨hscans', hfree⟩ := findConflictSeq_ok hscans₁ h
      refine ⟨hscans', fun b hb => ?_⟩
      rw [hbasis] at hb
      cases hb
      exact .inr ⟨hlt, hfree rfl⟩
    · cases h
      obtain ⟨hscans', hfree⟩ := findConflictSeq_ok hscans hfirst
      refine ⟨hscans', fun b hb => ?_⟩
      rw [hbasis] at hb
      cases hb
      exact .inl (hfree rfl)

theorem checkPendingRead_ok {st st' : PendingState} {read : PendingRead}
    (h : checkPendingRead s sessionKey branch identity true st read = .ok st')
    (hscans : s.ScansSound st.scans) (hsound : ResolutionsSound s sessionKey st.resolutions) :
    s.ScansSound st'.scans ∧ ResolutionsSound s sessionKey st'.resolutions ∧
      PendingClear s sessionKey branch identity read := by
  obtain ⟨_, h⟩ := Except.check_ok_iff.1 h
  obtain ⟨resolutions, hlayers, h⟩ := Except.bind_ok_iff.1 h
  obtain ⟨hsound', hresolved⟩ := resolveLayers_ok hlayers hsound
  obtain ⟨scopeKey, hkey, h⟩ := Except.bind_ok_iff.1 h
  obtain ⟨⟨conflictSeq, scans⟩, hconflict, h⟩ := Except.bind_ok_iff.1 h
  dsimp only at h
  split at h
  · cases h
    obtain ⟨hscans', hfree⟩ := pendingConflictSeq_none hscans hconflict
    exact ⟨hscans', hsound', hresolved, fun basisSeq hb => ⟨scopeKey, hkey, hfree basisSeq hb⟩⟩
  · cases h

theorem checkPendingReads_ok {reads : List PendingRead} {st st' : PendingState}
    (h : reads.foldlM (checkPendingRead s sessionKey branch identity true) st = .ok st')
    (hscans : s.ScansSound st.scans) (hsound : ResolutionsSound s sessionKey st.resolutions) :
    ∀ read ∈ reads, PendingClear s sessionKey branch identity read := by
  induction reads generalizing st with
  | nil => intro read hread; cases hread
  | cons read reads ih =>
    obtain ⟨st₁, hstep, h⟩ := List.foldlM_cons_ok.1 h
    obtain ⟨hscans₁, hsound₁, hclear⟩ := checkPendingRead_ok hstep hscans hsound
    intro read' hread'
    rcases List.mem_cons.1 hread' with rfl | hread'
    · exact hclear
    · exact ih h hscans₁ hsound₁ read' hread'

/-- Reads that are admitted as not stale: each is clear of conflicts. -/
theorem validateReads_ok {resolved : List PendingResolution}
    (h : validateReads s sessionKey o = .ok resolved) :
    (∀ read ∈ o.commit.confirmed, ConfirmedClear s o.branch o.session read) ∧
      ∀ read ∈ o.commit.pending, PendingClear s sessionKey o.branch o.session read := by
  obtain ⟨scans, hconfirmed, h⟩ := Except.bind_ok_iff.1 h
  obtain ⟨st, hpending, _⟩ := Except.bind_ok_iff.1 h
  obtain ⟨hscans, hclear⟩ := validateConfirmedReads_ok hconfirmed
  exact ⟨hclear, checkPendingReads_ok hpending hscans (fun _ hr => by cases hr)⟩

end Commit
