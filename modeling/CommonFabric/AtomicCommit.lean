import CommonFabric.CommitStatements

/-!
# Atomic commits

An operation applies commits inside one transaction, and may catch the failure of one and go
on. The transaction as a whole is undone where the operation throws; a commit in it that fails
is not. So a caught failure is as if the commit had never been made only where the commit was
refused before its row was written.
-/

open Store DocumentCache

/-- An operation that applies commits: it returns, throws, or applies one and goes on by its
outcome and by the store it then finds. -/
inductive AtomicOperation (τ : Type) where
  | returns (result : τ)
  | throws (error : EngineError)
  | apply (options : ApplyCommitOptions)
      (next : Except EngineError AppliedCommit → Store → AtomicOperation τ)

/-- A commit that was applied inside a transaction, with the stores around it. -/
structure Decided where
  options : ApplyCommitOptions
  before : Store
  outcome : Except EngineError AppliedCommit
  after : Store

/-- What an operation has done by its end. -/
structure Performed (τ : Type) where
  decided : List Decided
  store : Store
  result : Except EngineError τ

namespace AtomicOperation

variable {τ : Type}

def perform (e : Engine) : AtomicOperation τ → Store → Performed τ
  | .returns result, s => ⟨[], s, .ok result⟩
  | .throws error, s => ⟨[], s, .error error⟩
  | .apply o next, s =>
    let applied := Statements.applyCommitTransaction e o s
    let rest := (next applied.1 applied.2).perform e applied.2
    { rest with decided := ⟨o, s, applied.1, applied.2⟩ :: rest.decided }

end AtomicOperation

/-- `staged` is what the transaction's reads keep aside: it is published once the rows behind
it are durable, and dropped when the operation throws. -/
def runAtomicCommit {τ : Type} (e : Engine) (staged : DocumentCache) (st : EngineState)
    (operation : AtomicOperation τ) : EngineState × Except EngineError τ :=
  let performed := operation.perform e st.store
  match performed.result with
  | .ok result => (⟨performed.store, publish staged st.documentCache⟩, .ok result)
  | .error error => (st, .error error)

/-- The full effect of each commit that succeeded, one after another, each with the answer it
gave, and nothing of a commit that failed. -/
def Exactly (e : Engine) : List Decided → Store → Store → Prop
  | [], s, s' => s' = s
  | d :: rest, s, s' => match d.outcome with
    | .ok r => ∃ t, Commit.applyCommitTransaction e s d.options = .ok (t, r) ∧ Exactly e rest t s'
    | .error _ => Exactly e rest s s'

/-- The stores that reads inside the transaction see: between the commits, and amid them. -/
def Visited (s : Store) (decided : List Decided) (t : Store) : Prop :=
  t = s ∨ ∃ d ∈ decided, t = d.after ∨ Amid d.before d.after t

/-- The entries that reads of such stores may stage. -/
inductive StagedAmong (length : DataLength) (among : Store → Prop) (cache : DocumentCache) :
    DocumentCache → Prop
  | nil : StagedAmong length among cache []
  | record {staged : DocumentCache} {t : Store} {doc : DocInstance} {scope : CellScope}
      {seq : Option Nat} {state : EntityState} (h : StagedAmong length among cache staged)
      (ht : among t)
      (hread : t.readStateForScopeKey (cachedDocument length staged cache) doc scope seq =
        .ok (some state)) :
      StagedAmong length among cache (staged.put (documentCacheKey length state.row) state.document)

section

variable {τ : Type} (length : DataLength) (e : Engine) (staged : DocumentCache) (st : EngineState)
  (operation : AtomicOperation τ)

/-- The store is the one before where the operation threw, and holds exactly what succeeded
where it returned; the document cache agrees with its rows. -/
def CommittedAtomically : Prop :=
  (match (runAtomicCommit e staged st operation).2 with
    | .ok _ => Exactly e (operation.perform e st.store).decided st.store
        (runAtomicCommit e staged st operation).1.store
    | .error _ => (runAtomicCommit e staged st operation).1.store = st.store) ∧
  (runAtomicCommit e staged st operation).1.store.EntriesSound length
    (runAtomicCommit e staged st operation).1.documentCache

end

/-- The commit is fresh and admitted, so that its row is written. -/
structure Admits (e : Engine) (s : Store) (o : ApplyCommitOptions) (sessionKey : JsString)
    (a : Commit.Admission) : Prop where
  claimable : (o.commitClass ≠ .derived || e.serverExecution) = true
  key : resolveCommitSessionKey o.sessionId o.principal = .ok sessionKey
  fresh : s.selectExistingCommit sessionKey o.commit.localSeq = none
  admitted : Commit.admitCommit e s o sessionKey = .ok a

/-- A commit that is admitted writes all its rows without failing. -/
def WrittenWhole (e : Engine) (s : Store) (o : ApplyCommitOptions) : Prop :=
  ∀ sessionKey a, Admits e s o sessionKey a →
    ∃ written, Commit.writeCommit e s o sessionKey a = .ok written

variable {e : Engine} {s s' t : Store} {o : ApplyCommitOptions} {r : AppliedCommit}

/-- A commit is refused, answered again, or admitted and written. -/
theorem apply_cases (e : Engine) (o : ApplyCommitOptions) (s : Store) :
    (∃ error, Statements.applyCommitTransaction e o s = (.error error, s) ∧
      ∀ sessionKey a, ¬Admits e s o sessionKey a) ∨
    (∃ r, Statements.applyCommitTransaction e o s = (.ok r, s) ∧
      ∀ sessionKey a, ¬Admits e s o sessionKey a) ∨
    ∃ sessionKey a, Admits e s o sessionKey a ∧
      Statements.applyCommitTransaction e o s = Statements.writeCommit e o sessionKey a s := by
  unfold Statements.applyCommitTransaction
  simp only [Transact.run_bind, Transact.ask]
  cases hclass : (o.commitClass ≠ .derived || e.serverExecution : Bool) with
  | false =>
    refine .inl ⟨_, rfl, fun sessionKey a ha => ?_⟩
    rw [ha.claimable] at hclass
    cases hclass
  | true =>
    simp only [require, if_true]
    cases hkey : resolveCommitSessionKey o.sessionId o.principal with
    | error error =>
      refine .inl ⟨error, rfl, fun sessionKey a ha => ?_⟩
      rw [ha.key] at hkey
      cases hkey
    | ok sessionKey =>
      dsimp only
      cases hexisting : s.selectExistingCommit sessionKey o.commit.localSeq with
      | some existing =>
        have hnone : ∀ sessionKey a, ¬Admits e s o sessionKey a := by
          intro sessionKey' a ha
          have hsame := ha.key
          rw [hkey] at hsame
          cases hsame
          rw [ha.fresh] at hexisting
          cases hexisting
        dsimp only
        cases hreplay : Commit.replayCommit s o existing with
        | error error => exact .inl ⟨error, by rw [Transact.ask, hreplay], hnone⟩
        | ok r => exact .inr (.inl ⟨r, by rw [Transact.ask, hreplay], hnone⟩)
      | none =>
        simp only [Transact.run_bind, Transact.ask]
        cases hadmit : Commit.admitCommit e s o sessionKey with
        | error error =>
          refine .inl ⟨error, rfl, fun sessionKey' a ha => ?_⟩
          have hsame := ha.key
          rw [hkey] at hsame
          cases hsame
          rw [ha.admitted] at hadmit
          cases hadmit
        | ok a => exact .inr (.inr ⟨sessionKey, a, ⟨hclass, hkey, hexisting, hadmit⟩, rfl⟩)

/-- A commit that succeeds inside the transaction is one that succeeds. -/
theorem apply_of_ok (h : Statements.applyCommitTransaction e o s = (.ok r, t)) :
    Commit.applyCommitTransaction e s o = .ok (t, r) := by
  rw [← Statements.settled_applyCommitTransaction, Transact.settled, h]

/-- A commit that fails whose admitted rows are all written leaves the store as it was. -/
theorem unchanged_of_failed {error : EngineError} (hwhole : WrittenWhole e s o)
    (h : Statements.applyCommitTransaction e o s = (.error error, t)) : t = s := by
  cases apply_cases e o s with
  | inl hrefused =>
    obtain ⟨error', hrun, _⟩ := hrefused
    rw [hrun] at h
    cases h
    rfl
  | inr hrest =>
    cases hrest with
    | inl hreplayed =>
      obtain ⟨r, hrun, _⟩ := hreplayed
      rw [hrun] at h
      cases h
    | inr hadmitted =>
      obtain ⟨sessionKey, a, ha, hrun⟩ := hadmitted
      obtain ⟨⟨s', r⟩, hwritten⟩ := hwhole sessionKey a ha
      rw [← Statements.settled_writeCommit] at hwritten
      rw [hrun, Transact.run_of_settled hwritten] at h
      cases h

/-- No commit takes a number back. -/
theorem nextSeq_le (e : Engine) (o : ApplyCommitOptions) (s : Store) :
    s.nextSeq ≤ (Statements.applyCommitTransaction e o s).2.nextSeq := by
  cases apply_cases e o s with
  | inl hrefused =>
    obtain ⟨_, hrun, _⟩ := hrefused
    rw [hrun]
  | inr hrest =>
    cases hrest with
    | inl hreplayed =>
      obtain ⟨_, hrun, _⟩ := hreplayed
      rw [hrun]
    | inr hadmitted =>
      obtain ⟨sessionKey, a, ha, hrun⟩ := hadmitted
      rw [hrun]
      exact le_of_lt (Statements.left_writeCommit ha.fresh)

/-- A commit that is not written whole has failed, and its number is gone. -/
theorem nextSeq_lt_of_not_whole (h : ¬WrittenWhole e s o) :
    ∃ error t, Statements.applyCommitTransaction e o s = (.error error, t) ∧
      s.nextSeq < t.nextSeq := by
  simp only [WrittenWhole, not_forall] at h
  obtain ⟨sessionKey, a, ha, hfailed⟩ := h
  cases apply_cases e o s with
  | inl hrefused =>
    obtain ⟨_, _, hnone⟩ := hrefused
    exact absurd ha (hnone sessionKey a)
  | inr hrest =>
    cases hrest with
    | inl hreplayed =>
      obtain ⟨_, _, hnone⟩ := hreplayed
      exact absurd ha (hnone sessionKey a)
    | inr hadmitted =>
      obtain ⟨sessionKey', a', ha', hrun⟩ := hadmitted
      have hkey := ha'.key
      rw [ha.key] at hkey
      cases hkey
      have hsame := ha'.admitted
      rw [ha.admitted] at hsame
      cases hsame
      cases hwritten : Commit.writeCommit e s o sessionKey a with
      | ok written => exact absurd ⟨written, hwritten⟩ hfailed
      | error error =>
        rw [← Statements.settled_writeCommit] at hwritten
        exact ⟨error, _, hrun.trans (Transact.run_of_failed hwritten),
          Statements.left_writeCommit ha.fresh⟩

/-- A commit that succeeds is answered again, or takes the next number. -/
theorem applied_fresh (h : Commit.applyCommitTransaction e s o = .ok (t, r)) :
    (r.replayed = true ∧ t = s) ∨ r.replayed = false ∧ r.seq = s.nextSeq := by
  obtain ⟨sessionKey, _, hcases⟩ := Commit.applyCommitTransaction_ok h
  cases hcases with
  | inl hreplay =>
    obtain ⟨existing, _, hanswer, hsame⟩ := hreplay
    left
    rw [(Commit.replayCommit_ok hanswer).2.2.2]
    exact ⟨rfl, hsame⟩
  | inr hfresh =>
    obtain ⟨_, a, _, hwritten⟩ := hfresh
    obtain ⟨_, _, _, _, _, _, hr⟩ := Commit.writeCommit_ok hwritten
    right
    rw [hr]
    exact ⟨rfl, rfl⟩

variable {τ : Type} {operation : AtomicOperation τ}

/-- Once a store has used more numbers than another, the commits that follow do not leave of
the other exactly what they leave of it. -/
theorem not_exactly_of_ahead (h : t.nextSeq < s.nextSeq) :
    ¬Exactly e (operation.perform e s).decided t (operation.perform e s).store := by
  induction operation generalizing s t with
  | returns result =>
    intro hsame
    rw [show s = t from hsame] at h
    exact lt_irrefl _ h
  | throws error =>
    intro hsame
    rw [show s = t from hsame] at h
    exact lt_irrefl _ h
  | apply o next ih =>
    intro hexactly
    rw [AtomicOperation.perform] at hexactly
    cases hrun : Statements.applyCommitTransaction e o s with
    | mk outcome s' =>
      simp only [hrun, Exactly] at hexactly
      cases outcome with
      | error error =>
        have hle := nextSeq_le e o s
        rw [hrun] at hle
        exact ih _ _ (lt_of_lt_of_le h hle) hexactly
      | ok r =>
        obtain ⟨t', happlied, hrest⟩ := hexactly
        cases applied_fresh (apply_of_ok hrun) with
        | inl hreplayed =>
          cases applied_fresh happlied with
          | inl hagain =>
            rw [hreplayed.2, hagain.2] at hrest
            exact ih _ _ h hrest
          | inr hfresh =>
            rw [hreplayed.1] at hfresh
            cases hfresh.1
        | inr hfresh =>
          cases applied_fresh happlied with
          | inl hagain =>
            rw [hfresh.1] at hagain
            cases hagain.1
          | inr hagain =>
            rw [← hfresh.2, ← hagain.2] at h
            exact lt_irrefl _ h

/-- What an operation leaves is exactly what succeeded if no commit fails with its row written. -/
theorem exactly_iff : Exactly e (operation.perform e s).decided s (operation.perform e s).store ↔
    ∀ d ∈ (operation.perform e s).decided, WrittenWhole e d.before d.options := by
  induction operation generalizing s with
  | returns result => simp [AtomicOperation.perform, Exactly]
  | throws error => simp [AtomicOperation.perform, Exactly]
  | apply o next ih =>
    rw [AtomicOperation.perform]
    by_cases hwhole : WrittenWhole e s o
    · cases hrun : Statements.applyCommitTransaction e o s with
      | mk outcome s' =>
        simp only [Exactly, List.forall_mem_cons]
        cases outcome with
        | error error =>
          have hsame := unchanged_of_failed hwhole hrun
          rw [hsame]
          simp only [hwhole, true_and]
          exact ih _ _
        | ok r =>
          simp only [hwhole, true_and, apply_of_ok hrun, Except.ok.injEq, Prod.mk.injEq, and_true,
            exists_eq_left']
          exact ih _ _
    · obtain ⟨error, s', hrun, hlt⟩ := nextSeq_lt_of_not_whole hwhole
      simp only [hrun, Exactly, List.forall_mem_cons, hwhole, false_and, iff_false]
      exact not_exactly_of_ahead hlt

variable {length : DataLength} {opens : Engine → Prop} {st : EngineState}
  {cache staged : DocumentCache} {among : Store → Prop}

/-- What reads of sound stores stage is what rows of the store they lead to decode to. -/
theorem StagedAmong.entriesSound (hs' : s'.RowsAscending)
    (hamong : ∀ t, among t → t.revisions <+: s'.revisions ∧ t.HeadsCurrent ∧ t.SnapshotsSound)
    (hcache : s'.EntriesSound length cache) (h : StagedAmong length among cache staged) :
    s'.EntriesSound length staged := by
  induction h with
  | nil =>
    intro entry hentry
    cases hentry
  | record _ ht hread ih =>
    obtain ⟨hnewer, hheads, hsnapshots⟩ := hamong _ ht
    have hasc : RowsAscending _ := fun doc =>
      List.Pairwise.sublist (hnewer.sublist.filter _) (hs' doc)
    obtain ⟨hmem, hreplay⟩ := readStateForScopeKey_spec hasc hheads hsnapshots
      (ih.cacheSound hs' hnewer hcache) hread
    rw [← rowsUpTo_initial hs' hnewer hmem] at hreplay
    exact ih.put (hnewer.subset hmem) hreplay

/-- Between two stores of which the commit has written nothing. -/
theorem Store.Amid.unwritten (hs : s.Sound) (h : Amid s s t) : t.SnapshotsSound := by
  have hrows : t.revisions = s.revisions :=
    List.Sublist.antisymm h.newer.sublist h.older.sublist
  intro x hx
  have hmem : x ∈ s.snapshots := by
    cases h.snapshots x hx with
    | inl hmem => exact hmem
    | inr hmem => exact hmem.2
  rw [rowsThrough, rowsOf_of_revisions hrows]
  exact hs.snapshots x hmem

/-- The commits of a transaction that are written whole follow one another. -/
theorem performed_later (he : opens e) (hs : s.Sound)
    (hwhole : ∀ d ∈ (operation.perform e s).decided, WrittenWhole e d.before d.options) :
    Later opens s (operation.perform e s).store ∧
      ∀ d ∈ (operation.perform e s).decided, d.before.Sound ∧
        (Step opens d.before d.after ∨ d.after = d.before) ∧
        Later opens d.after (operation.perform e s).store := by
  induction operation generalizing s with
  | returns result => exact ⟨.refl, by simp [AtomicOperation.perform]⟩
  | throws error => exact ⟨.refl, by simp [AtomicOperation.perform]⟩
  | apply o next ih =>
    rw [AtomicOperation.perform] at hwhole ⊢
    cases hrun : Statements.applyCommitTransaction e o s with
    | mk outcome s' =>
      simp only [hrun, List.forall_mem_cons] at hwhole ⊢
      have hstep : Step opens s s' ∨ s' = s := by
        cases outcome with
        | error error => exact .inr (unchanged_of_failed hwhole.1 hrun)
        | ok r => exact .inl (.commit he (apply_of_ok hrun))
      have hfirst : Later opens s s' := by
        cases hstep with
        | inl hstep => exact .single hstep
        | inr hsame =>
          rw [hsame]
          exact .refl
      obtain ⟨hlater, hrest⟩ := ih outcome s' (hfirst.sound hs) hwhole.2
      exact ⟨hfirst.trans hlater, ⟨hs, hstep, hlater⟩, hrest⟩

theorem visited_spec (he : opens e) (hs : s.Sound)
    (hwhole : ∀ d ∈ (operation.perform e s).decided, WrittenWhole e d.before d.options)
    (ht : Visited s (operation.perform e s).decided t) :
    t.revisions <+: (operation.perform e s).store.revisions ∧ t.HeadsCurrent ∧
      t.SnapshotsSound := by
  obtain ⟨hlater, hall⟩ := performed_later he hs hwhole
  cases ht with
  | inl hstart =>
    rw [hstart]
    exact ⟨hlater.revisions hs, hs.heads, hs.snapshots⟩
  | inr hamid =>
    obtain ⟨d, hd, hamid⟩ := hamid
    obtain ⟨hbefore, hstep, hrest⟩ := hall d hd
    have hafter : d.after.Sound := by
      cases hstep with
      | inl hstep => exact hstep.sound hbefore
      | inr hsame =>
        rw [hsame]
        exact hbefore
    cases hamid with
    | inl hsame =>
      rw [hsame]
      exact ⟨hrest.revisions hafter, hafter.heads, hafter.snapshots⟩
    | inr hamid =>
      refine ⟨hamid.newer.trans (hrest.revisions hafter), hamid.heads, ?_⟩
      cases hstep with
      | inl hstep => exact hamid.snapshotsSound hbefore hafter hstep
      | inr hsame =>
        rw [hsame] at hamid
        exact hamid.unwritten hbefore

/-- A document set, and a field of it edited by a codec that the engine does not have. -/
def unknownCodec : ApplyCommitOptions :=
  .authored "s" (.ofOperations 1 [.set "of:d" none ⟨[("value", .record [("t", .string "a")])]⟩,
    .applyOp ⟨"of:d", none, ["t"], "text@1", "x", .baseline, none, .string "b"⟩])

/-- The commit is applied, and its failure caught. -/
def caught : AtomicOperation Unit := .apply unknownCodec fun _ _ => .returns ()

/-- The store that a transaction over an empty one leaves. -/
def caughtStore : Store := (runAtomicCommit (bareEngine 0 0) [] ⟨.empty, []⟩ caught).1.store

/-- The commit fails, and its row and the revision of the document stay. -/
theorem caught_leaves_rows :
    (∃ error, (Statements.applyCommitTransaction (bareEngine 0 0) unknownCodec .empty).1 =
      .error error) ∧
    caughtStore.commits.length = 1 ∧ caughtStore.revisions.length = 1 ∧
    ¬CommittedAtomically (fun _ => 0) (bareEngine 0 0) [] ⟨.empty, []⟩ caught := by
  have hcommits : caughtStore.commits.length = 1 := by decide +kernel
  cases houtcome : (Statements.applyCommitTransaction (bareEngine 0 0) unknownCodec .empty).1 with
  | ok r =>
    have hfailed : (Statements.applyCommitTransaction (bareEngine 0 0) unknownCodec .empty).1.toBool =
        false := by decide +kernel
    rw [houtcome] at hfailed
    cases hfailed
  | error error =>
    refine ⟨⟨error, rfl⟩, hcommits, by decide +kernel, fun hcommitted => ?_⟩
    have hexactly : Exactly (bareEngine 0 0) (caught.perform (bareEngine 0 0) .empty).decided .empty
        caughtStore := hcommitted.1
    simp only [caught, AtomicOperation.perform, Exactly, houtcome] at hexactly
    rw [hexactly] at hcommits
    cases hcommits

/-- An atomic commit leaves the store as it was where its operation throws, and otherwise
exactly what succeeded, with a cache that agrees: if and only if the operation throws, or every
commit in it that fails is refused before its row is written. -/
theorem atomic_commit_iff (hreach : EngineState.Reachable length opens st) (he : opens e)
    (hstaged : StagedAmong length (Visited st.store (operation.perform e st.store).decided)
      st.documentCache staged) :
    CommittedAtomically length e staged st operation ↔
      (∃ error, (operation.perform e st.store).result = .error error) ∨
        ∀ d ∈ (operation.perform e st.store).decided, WrittenWhole e d.before d.options := by
  have hsound := hreach.sound
  rw [CommittedAtomically, runAtomicCommit]
  cases hresult : (operation.perform e st.store).result with
  | error error => simp [hsound.entries]
  | ok result =>
    simp only [exactly_iff, reduceCtorEq, exists_false, false_or, and_iff_left_iff_imp]
    intro hwhole
    have hlater := (performed_later he hsound.store hwhole).1
    have hafter := hlater.sound hsound.store
    have hcache := hsound.entries.prefix hafter.ascending (hlater.revisions hsound.store)
    have hentries := hstaged.entriesSound hafter.ascending
      (fun t ht => visited_spec he hsound.store hwhole ht) hcache
    intro entry hentry
    cases List.mem_append.1 hentry with
    | inl hnew => exact hentries entry (List.mem_filter.1 hnew).1
    | inr hold => exact hcache entry hold

theorem atomic_commit_iff_caught :
    CommittedAtomically (fun _ => 0) (bareEngine 0 0) [] ⟨.empty, []⟩ caught ↔
      (∃ error, (caught.perform (bareEngine 0 0) .empty).result = .error error) ∨
        ∀ d ∈ (caught.perform (bareEngine 0 0) .empty).decided,
          WrittenWhole (bareEngine 0 0) d.before d.options :=
  @atomic_commit_iff _ _ _ _ (fun _ => True) ⟨.empty, []⟩ _ .refl trivial .nil
