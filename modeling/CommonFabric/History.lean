import CommonFabric.Transaction
import CommonFabric.Wave
import Mathlib.Logic.Relation

/-!
# Histories of a store

A store is reached by transactions from the empty one: commits, waves, and the making
and deleting of branches. Every store that is reached is sound. The engines that open
the store over its history may be configured in different ways; `opens` says which may.
-/

namespace Commit

variable {e : Engine} {s s' : Store} {o : ApplyCommitOptions} {sessionKey : JsString}
  {a : Admission} {r : AppliedCommit}

/-- What an admitted commit has passed, of the checks the proofs use. -/
structure Admitted (e : Engine) (s : Store) (o : ApplyCommitOptions) (sessionKey : JsString)
    (a : Admission) : Prop where
  envelope : checkEnvelope e o sessionKey = .ok ()
  scopes : checkScopes o = .ok ()
  branch : ∃ b ∈ s.branches, b.name = o.branch ∧ b.active = true
  preconditions : validateCommitPreconditions e s sessionKey o = .ok ()
  elided : ∃ elided, ContentAddressed.validateContentAddressed e s o.passContext
    o.commit.operations = .ok elided ∧ admitReads s sessionKey o elided = .ok a.reads
  plan : Streams.validateEventAppends e s o.author o.commit o.branch o.scopeKeyAt = .ok a.plan

theorem checkBranchActive_ok {branch : BranchName} (h : checkBranchActive s branch = .ok ()) :
    ∃ b ∈ s.branches, b.name = branch ∧ b.active = true := by
  obtain ⟨b, hb, hactive⟩ := Except.bind_ok_iff.1 h
  obtain ⟨hmem, hname⟩ := Store.selectBranch_mem (Store.requireBranch_ok_iff.1 hb)
  exact ⟨b, hmem, hname, by simpa using hactive⟩

theorem admitCommit_ok (h : admitCommit e s o sessionKey = .ok a) :
    Admitted e s o sessionKey a := by
  obtain ⟨_, h⟩ := Except.check_ok_iff.1 h
  obtain ⟨henvelope, h⟩ := Except.check_ok_iff.1 h
  obtain ⟨hscopes, h⟩ := Except.check_ok_iff.1 h
  obtain ⟨_, h⟩ := Except.check_ok_iff.1 h
  obtain ⟨hactive, h⟩ := Except.check_ok_iff.1 h
  obtain ⟨_, h⟩ := Except.check_ok_iff.1 h
  obtain ⟨hpre, h⟩ := Except.check_ok_iff.1 h
  obtain ⟨elided, helided, h⟩ := Except.bind_ok_iff.1 h
  obtain ⟨reads, hreads, h⟩ := Except.bind_ok_iff.1 h
  obtain ⟨_, h⟩ := Except.check_ok_iff.1 h
  obtain ⟨plan, hplan, h⟩ := Except.bind_ok_iff.1 h
  cases h
  exact ⟨henvelope, hscopes, checkBranchActive_ok hactive, hpre, ⟨elided, helided, hreads⟩, hplan⟩

/-- Reads that are not stale leave the elided operations as the pass found them. -/
theorem admitReads_ok {elided : List Nat} {reads : ReadAdmission}
    (h : admitReads s sessionKey o elided = .ok reads) :
    (reads.tookIdentityEscape = false ∧ reads.elidedOpIndexes = elided ∧
        validateReads s sessionKey o = .ok reads.resolvedPendingReads) ∨
      reads.tookIdentityEscape = true ∧
        reads.elidedOpIndexes = List.range o.commit.operations.length ∧
        (∃ refusal, validateReads s sessionKey o = .error refusal ∧
          refusal.conflictSeq.isSome = true) ∧
        Identity.isIdentityCommit s ⟨o.passContext, sessionKey, o.commit, o.elidedVerdicts⟩ elided =
          .ok true := by
  obtain ⟨_, h⟩ := Except.check_ok_iff.1 h
  cases hvalid : validateReads s sessionKey o with
  | ok resolved =>
    rw [hvalid] at h
    cases h
    exact .inl ⟨rfl, rfl, rfl⟩
  | error refusal =>
    rw [hvalid] at h
    dsimp only at h
    split at h
    · cases h
    · rename_i hseq
      obtain ⟨identity, hidentity, h⟩ := Except.bind_ok_iff.1 h
      cases identity with
      | false => cases h
      | true =>
        obtain ⟨resolved, _, h⟩ := Except.bind_ok_iff.1 h
        cases h
        refine .inr ⟨rfl, rfl, ⟨refusal, rfl, ?_⟩, hidentity⟩
        cases hc : refusal.conflictSeq with
        | none => rw [hc] at hseq; exact absurd rfl hseq
        | some _ => rfl

/-- A transaction answers a resubmission, or writes a fresh commit. -/
theorem applyCommitTransaction_ok (h : applyCommitTransaction e s o = .ok (s', r)) :
    ∃ sessionKey, resolveCommitSessionKey o.sessionId o.principal = .ok sessionKey ∧
      ((∃ existing, s.selectExistingCommit sessionKey o.commit.localSeq = some existing ∧
          replayCommit s o existing = .ok r ∧ s' = s) ∨
        s.selectExistingCommit sessionKey o.commit.localSeq = none ∧
        ∃ a, admitCommit e s o sessionKey = .ok a ∧
          writeCommit e s o sessionKey a = .ok (s', r)) := by
  obtain ⟨_, h⟩ := Except.check_ok_iff.1 h
  obtain ⟨sessionKey, hkey, h⟩ := Except.bind_ok_iff.1 h
  refine ⟨sessionKey, hkey, ?_⟩
  split at h
  · rename_i existing hexisting
    cases hr : replayCommit s o existing with
    | error e => rw [hr] at h; cases h
    | ok answer =>
      rw [hr] at h
      cases h
      exact .inl ⟨existing, hexisting, hr, rfl⟩
  · rename_i hnone
    obtain ⟨a, ha, h⟩ := Except.bind_ok_iff.1 h
    exact .inr ⟨hnone, a, ha, h⟩

theorem replayCommit_ok {existing : CommitRow} (h : replayCommit s o existing = .ok r) :
    existing.original = o.commit ∧ existing.commitClass = o.commitClass ∧
      existing.holder = o.storedHolder ∧
      r = ⟨existing.seq, existing.branch,
        (s.selectCommitRevisions existing.seq).map (replayedRevision o.commit.operations),
        existing.resolution.operationResolutions,
        replayedElided o.commit.operations (s.selectCommitRevisions existing.seq), true⟩ := by
  obtain ⟨horiginal, h⟩ := Except.check_ok_iff.1 h
  obtain ⟨hstored, h⟩ := Except.check_ok_iff.1 h
  simp only [require_ok_iff, decide_eq_true_eq, Bool.and_eq_true] at horiginal hstored
  cases h
  exact ⟨horiginal, hstored.1, hstored.2, rfl⟩

/-- A fresh commit, from its admission to its effect. -/
structure Accepted (e : Engine) (s : Store) (o : ApplyCommitOptions) (sessionKey : JsString)
    (a : Admission) (s' : Store) (r : AppliedCommit) : Prop where
  fresh : s.selectExistingCommit sessionKey o.commit.localSeq = none
  admission : admitCommit e s o sessionKey = .ok a
  admitted : Admitted e s o sessionKey a
  written : writeCommit e s o sessionKey a = .ok (s', r)
  effect : Effect s s' o sessionKey a r
  sound : s'.Sound

/-- A transaction over a sound store leaves it as it is or accepts a fresh commit. -/
theorem applyCommitTransaction_cases (hs : s.Sound)
    (h : applyCommitTransaction e s o = .ok (s', r)) :
    ∃ sessionKey, resolveCommitSessionKey o.sessionId o.principal = .ok sessionKey ∧
      ((s' = s ∧ r.replayed = true) ∨ ∃ a, Accepted e s o sessionKey a s' r) := by
  obtain ⟨sessionKey, hkey, ⟨existing, _, hr, rfl⟩ | ⟨hnone, a, ha, hw⟩⟩ :=
    applyCommitTransaction_ok h
  · refine ⟨sessionKey, hkey, .inl ⟨rfl, ?_⟩⟩
    rw [(replayCommit_ok hr).2.2.2]
  · have hadmitted := admitCommit_ok ha
    obtain ⟨b, hb, hname, _⟩ := hadmitted.branch
    obtain ⟨heffect, hsound⟩ := writeCommit_effect hs ⟨b, hb, hname⟩ hw
    exact ⟨sessionKey, hkey, .inr ⟨a, hnone, ha, hadmitted, hw, heffect, hsound⟩⟩

end Commit

namespace Store

variable {s s' : Store}

theorem createBranch_ok {name : BranchName} {parent : Option BranchName} {forkSeq : Option Nat}
    (h : s.createBranch name parent forkSeq = .ok s') :
    s' = s ∨ s.selectBranch name = none ∧ ∃ p ∈ s.branches,
      s' = { s with branches := s.branches ++ [⟨name, some p.name, some (forkSeq.getD p.headSeq),
        forkSeq.getD p.headSeq, forkSeq.getD p.headSeq, true⟩] } := by
  unfold createBranch at h
  split at h
  · obtain ⟨_, _, h⟩ := Except.bind_ok_iff.1 h
    cases h
    exact .inl rfl
  · split at h
    · cases h; exact .inl rfl
    · rename_i hnone
      obtain ⟨p, hp, h⟩ := Except.bind_ok_iff.1 h
      cases h
      exact .inr ⟨hnone, p, (selectBranch_mem (requireBranch_ok_iff.1 hp)).1, rfl⟩

theorem Sound.createBranch (hs : s.Sound) {name : BranchName} {parent : Option BranchName}
    {forkSeq : Option Nat} (h : s.createBranch name parent forkSeq = .ok s') : s'.Sound := by
  obtain rfl | ⟨hnone, p, hp, rfl⟩ := createBranch_ok h
  · exact hs
  · generalize forkSeq.getD p.headSeq = fork
    refine { hs.toRowsSound.withBranches _ with
      names := ?_, default := ?_, created := ?_, forks := ?_, commitHeads := ?_, parents := ?_ }
    · refine List.pairwise_append.2 ⟨hs.names, List.pairwise_singleton _ _, ?_⟩
      intro a ha b hb
      obtain rfl := List.mem_singleton.1 hb
      simpa using List.find?_eq_none.1 hnone a ha
    · obtain ⟨b, hb, hdefault⟩ := hs.default
      exact ⟨b, List.mem_append_left _ hb, hdefault⟩
    · intro b hb
      rcases List.mem_append.1 hb with hb | hb
      · exact hs.created b hb
      · obtain rfl := List.mem_singleton.1 hb
        exact le_refl _
    · intro b hb
      rcases List.mem_append.1 hb with hb | hb
      · exact hs.forks b hb
      · obtain rfl := List.mem_singleton.1 hb
        exact le_refl _
    · intro c hc
      obtain ⟨b, hb, hhead⟩ := hs.commitHeads c hc
      exact ⟨b, List.mem_append_left _ hb, hhead⟩
    · intro older b newer hsplit q hq
      rcases List.append_eq_append_iff.1 hsplit with ⟨l, rfl, hl⟩ | ⟨l, hl, hrest⟩
      · cases l with
        | nil => cases hl; cases hq; exact ⟨p, by simpa using hp, rfl⟩
        | cons x l => simp at hl
      · cases l with
        | nil => cases hrest; cases hq; exact ⟨p, by simpa [hl] using hp, rfl⟩
        | cons x l =>
          cases hrest
          obtain ⟨b', hb', hname⟩ := hs.parents older b l hl q hq
          exact ⟨b', hb', hname⟩

theorem Sound.deleteBranch (hs : s.Sound) {branch : BranchName}
    (h : s.deleteBranch branch = .ok s') : s'.Sound := by
  obtain ⟨_, _, h⟩ := Except.bind_ok_iff.1 h
  cases h
  generalize hf : (fun b : BranchState => if b.name = branch && b.name ≠ DEFAULT_BRANCH then
    { b with active := false } else b) = f
  have hfield : ∀ b, (f b).name = b.name ∧ (f b).parentBranch = b.parentBranch ∧
      (f b).createdSeq = b.createdSeq ∧ (f b).headSeq = b.headSeq ∧ (f b).forkSeq = b.forkSeq := by
    intro b; rw [← hf]; dsimp only; split <;> simp
  refine { hs.toRowsSound.withBranches _ with
    names := ?_, default := ?_, created := ?_, forks := ?_, commitHeads := ?_, parents := ?_ }
  · refine List.pairwise_map.2 (hs.names.imp fun {a b} h => ?_)
    rw [(hfield a).1, (hfield b).1]; exact h
  · obtain ⟨b, hb, hname, hparent⟩ := hs.default
    exact ⟨f b, List.mem_map.2 ⟨b, hb, rfl⟩, by rw [(hfield b).1, hname],
      by rw [(hfield b).2.1, hparent]⟩
  · intro b hb
    obtain ⟨b', hb', rfl⟩ := List.mem_map.1 hb
    rw [(hfield b').2.2.1, (hfield b').2.2.2.1]
    exact hs.created b' hb'
  · intro b hb
    obtain ⟨b', hb', rfl⟩ := List.mem_map.1 hb
    rw [(hfield b').2.2.1, (hfield b').2.2.2.2]
    exact hs.forks b' hb'
  · intro c hc
    obtain ⟨b, hb, hname, hle⟩ := hs.commitHeads c hc
    exact ⟨f b, List.mem_map.2 ⟨b, hb, rfl⟩, by rw [(hfield b).1, hname],
      by rw [(hfield b).2.2.2.1]; exact hle⟩
  · exact parents_map (fun b => (hfield b).1) (fun b => (hfield b).2.1) hs.toBranchesSound

theorem empty_sound : Store.empty.Sound where
  ordered := .nil
  unique := .nil
  heads _ := rfl
  commitsAscending := .nil
  sessions := .nil
  rowCommit _ h := by cases h
  snapshots _ h := by cases h
  snapshotRow _ h := by cases h
  names := List.pairwise_singleton _ _
  default := ⟨_, List.mem_singleton_self _, rfl, rfl⟩
  created b h := by obtain rfl := List.mem_singleton.1 h; exact le_refl _
  forks b h := by obtain rfl := List.mem_singleton.1 h; exact le_refl _
  commitHeads _ h := by cases h
  parents older b newer h p hp := by
    cases older with
    | nil => cases h; cases hp
    | cons x older => simp [Store.empty] at h

theorem recordWave_frame (w : WaveOptions) (applied : AppliedCommit) :
    ∃ schedulerBasis outbox, Wave.recordWave s w applied = { s with schedulerBasis, outbox } := by
  have hfold : ∀ (l : List WaveBasisInstance) (t : Store),
      ∃ schedulerBasis, l.foldl (fun s i => Wave.replaceSchedulerBasisRows s w.apply.branch
        applied.seq i) t = { t with schedulerBasis } := by
    intro l
    induction l with
    | nil => intro t; exact ⟨t.schedulerBasis, rfl⟩
    | cons i l ih =>
      intro t
      obtain ⟨b, hb⟩ := ih (Wave.replaceSchedulerBasisRows t w.apply.branch applied.seq i)
      exact ⟨b, hb⟩
  obtain ⟨b, hb⟩ := hfold w.basisInstances s
  unfold Wave.recordWave
  dsimp only
  rw [hb]
  split
  · exact ⟨b, s.outbox, rfl⟩
  · exact ⟨b, _, rfl⟩

theorem asWaveRefusal_ok {α : Type} {x : Except EngineError α} {y : α}
    (h : Wave.asWaveRefusal x = .ok y) : x = .ok y := by
  unfold Wave.asWaveRefusal at h
  split at h
  · cases h
  · exact h

/-- A wave that is accepted has been verified and has applied its commit. -/
theorem applyWaveTransaction_ok {e : Engine} {w : WaveOptions} {r : AppliedCommit}
    (h : Wave.applyWaveTransaction e s w = .ok (s', r)) :
    Wave.checkHeads s w = .ok () ∧ Wave.checkHandlerReads s w = .ok () ∧
      Wave.checkPreconditions e s w = .ok () ∧ ∃ s₁,
        Commit.applyCommitTransaction e s (Wave.applyOptions w) = .ok (s₁, r) ∧
          s' = Wave.recordWave s₁ w r := by
  obtain ⟨_, h⟩ := Except.check_ok_iff.1 h
  obtain ⟨hheads, h⟩ := Except.check_ok_iff.1 h
  obtain ⟨hreads, h⟩ := Except.check_ok_iff.1 h
  obtain ⟨hpre, h⟩ := Except.check_ok_iff.1 h
  obtain ⟨⟨s₁, applied⟩, happly, h⟩ := Except.bind_ok_iff.1 h
  cases h
  exact ⟨hheads, hreads, hpre, s₁, asWaveRefusal_ok happly, rfl⟩

/-- One transaction on the store, by an engine that may open it. -/
inductive Step (opens : Engine → Prop) (s : Store) : Store → Prop
  | commit {e : Engine} {o : ApplyCommitOptions} {s' : Store} {r : AppliedCommit} (he : opens e)
      (h : Commit.applyCommitTransaction e s o = .ok (s', r)) : Step opens s s'
  | wave {e : Engine} {w : WaveOptions} {s' : Store} {r : AppliedCommit} (he : opens e)
      (h : Wave.applyWaveTransaction e s w = .ok (s', r)) : Step opens s s'
  | createBranch {name : BranchName} {parent : Option BranchName} {forkSeq : Option Nat}
      {s' : Store} (h : s.createBranch name parent forkSeq = .ok s') : Step opens s s'
  | deleteBranch {branch : BranchName} {s' : Store} (h : s.deleteBranch branch = .ok s') :
      Step opens s s'

/-- `s'` is reached from `s` by transactions. -/
def Later (opens : Engine → Prop) : Store → Store → Prop := Relation.ReflTransGen (Step opens)

def Reachable (opens : Engine → Prop) (s : Store) : Prop := Later opens Store.empty s

variable {opens : Engine → Prop}

theorem Step.sound (h : Step opens s s') (hs : s.Sound) : s'.Sound := by
  have hcommit : ∀ {e : Engine} {o : ApplyCommitOptions} {t : Store} {r : AppliedCommit},
      Commit.applyCommitTransaction e s o = .ok (t, r) → t.Sound := by
    intro e o t r h
    obtain ⟨_, _, ⟨rfl, _⟩ | ⟨a, ha⟩⟩ := Commit.applyCommitTransaction_cases hs h
    · exact hs
    · exact ha.sound
  cases h with
  | commit _ h => exact hcommit h
  | wave _ h =>
    obtain ⟨_, _, _, s₁, happly, rfl⟩ := applyWaveTransaction_ok h
    obtain ⟨b, x, hrecord⟩ := recordWave_frame (s := s₁) _ _
    rw [hrecord]
    exact { hcommit happly with }
  | createBranch h => exact hs.createBranch h
  | deleteBranch h => exact hs.deleteBranch h

/-- A transaction accepts a fresh commit, to which a wave adds what it keeps apart, or
makes or deletes a branch, or changes nothing. -/
theorem Step.cases (h : Step opens s s') (hs : s.Sound) :
    (∃ e o sessionKey a t r schedulerBasis outbox, opens e ∧
        Commit.Accepted e s o sessionKey a t r ∧ s' = { t with schedulerBasis, outbox }) ∨
      (∃ name parent forkSeq, s.createBranch name parent forkSeq = .ok s') ∨
      (∃ branch, s.deleteBranch branch = .ok s') ∨
      ∃ schedulerBasis outbox, s' = { s with schedulerBasis, outbox } := by
  cases h with
  | @commit e o _ r he h =>
    obtain ⟨sessionKey, _, ⟨rfl, _⟩ | ⟨a, ha⟩⟩ := Commit.applyCommitTransaction_cases hs h
    · exact .inr (.inr (.inr ⟨_, _, rfl⟩))
    · exact .inl ⟨e, o, sessionKey, a, s', r, _, _, he, ha, rfl⟩
  | @wave e w _ r he h =>
    obtain ⟨_, _, _, s₁, happly, rfl⟩ := applyWaveTransaction_ok h
    obtain ⟨b, x, hrecord⟩ := recordWave_frame (s := s₁) w r
    obtain ⟨sessionKey, _, ⟨rfl, _⟩ | ⟨a, ha⟩⟩ := Commit.applyCommitTransaction_cases hs happly
    · exact .inr (.inr (.inr ⟨b, x, hrecord⟩))
    · exact .inl ⟨e, _, sessionKey, a, s₁, r, b, x, he, ha, hrecord⟩
  | createBranch h => exact .inr (.inl ⟨_, _, _, h⟩)
  | deleteBranch h => exact .inr (.inr (.inl ⟨_, h⟩))

/-- A transaction accepts a fresh commit, or leaves the log and the commits as they are. -/
theorem Step.logged (h : Step opens s s') (hs : s.Sound) :
    (∃ e o sessionKey a t r, Commit.Accepted e s o sessionKey a t r ∧
        s'.revisions = t.revisions ∧ s'.commits = t.commits) ∨
      s'.revisions = s.revisions ∧ s'.commits = s.commits := by
  obtain ⟨e, o, sessionKey, a, t, r, b, x, _, ha, rfl⟩ | ⟨name, parent, forkSeq, h⟩ | ⟨branch, h⟩ |
    ⟨b, x, rfl⟩ := h.cases hs
  · exact .inl ⟨e, o, sessionKey, a, t, r, ha, rfl, rfl⟩
  · obtain rfl | ⟨_, _, _, rfl⟩ := createBranch_ok h <;> exact .inr ⟨rfl, rfl⟩
  · obtain ⟨_, _, h⟩ := Except.bind_ok_iff.1 h
    cases h
    exact .inr ⟨rfl, rfl⟩
  · exact .inr ⟨rfl, rfl⟩

/-- A transaction adds rows to the log, all at the seq it takes. -/
theorem Step.revisions (h : Step opens s s') (hs : s.Sound) :
    ∃ rows, s'.revisions = s.revisions ++ rows ∧ ∀ r ∈ rows, r.seq = s.nextSeq := by
  obtain ⟨e, o, sessionKey, a, t, r, ha, hrows, _⟩ | ⟨hrows, _⟩ := h.logged hs
  · refine ⟨_, hrows.trans ha.effect.revisions, fun x hx => ?_⟩
    obtain ⟨y, hy, rfl⟩ := List.mem_map.1 hx
    exact (ha.effect.ofRow y hy).2.1
  · exact ⟨[], by simp [hrows], by simp⟩

/-- The log only grows. -/
theorem Later.revisions (h : Later opens s s') (hs : s.Sound) : s.revisions <+: s'.revisions := by
  have hboth : s'.Sound ∧ s.revisions <+: s'.revisions := by
    induction h with
    | refl => exact ⟨hs, List.prefix_refl _⟩
    | tail _ hstep ih =>
      obtain ⟨rows, hrows, _⟩ := hstep.revisions ih.1
      exact ⟨hstep.sound ih.1, ih.2.trans ⟨rows, hrows.symm⟩⟩
  exact hboth.2

theorem Later.sound (h : Later opens s s') (hs : s.Sound) : s'.Sound := by
  induction h with
  | refl => exact hs
  | tail _ hstep ih => exact hstep.sound ih

theorem Reachable.sound (h : Reachable opens s) : s.Sound := Later.sound h empty_sound

/-- Commits applied one after another. -/
def applyCommits (e : Engine) (s : Store) (os : List ApplyCommitOptions) :
    Except EngineError Store :=
  os.foldlM (fun s o => Prod.fst <$> Commit.applyCommitTransaction e s o) s

/-- The store the commits leave of an empty one; the empty one when they are refused. -/
def storeAfter (e : Engine) (os : List ApplyCommitOptions) : Store :=
  ((applyCommits e .empty os).toOption).getD .empty

/-- What a commit that is accepted leaves and answers. -/
def applied (e : Engine) (s : Store) (o : ApplyCommitOptions) : Store × AppliedCommit :=
  ((Commit.applyCommitTransaction e s o).toOption).getD (s, ⟨0, o.branch, [], [], [], true⟩)

theorem Later.of_applyCommits {e : Engine} (he : opens e) (os : List ApplyCommitOptions)
    (h : applyCommits e s os = .ok s') : Later opens s s' := by
  refine List.foldlM_invariant (Later opens s) ?_ Relation.ReflTransGen.refl h
  intro o _ t t' ht hstep
  cases hr : Commit.applyCommitTransaction e t o with
  | error e => rw [hr] at hstep; cases hstep
  | ok r =>
    rw [hr] at hstep
    cases hstep
    exact Relation.ReflTransGen.tail ht (.commit he hr)

end Store
