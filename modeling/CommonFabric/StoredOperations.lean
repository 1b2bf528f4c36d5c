import CommonFabric.Branching

/-!
# Documents a commit does not write

A commit that stores no row of an instance on its branch leaves the document the branch
shows, its own or an inherited one. On another branch it leaves every document, unless it
writes on a branch that was forked past the end of the log.
-/

namespace Store

variable {s s' : Store} {doc : DocInstance}

/-- The branch's head is in the log, where only a fork past its end does not leave it. -/
def HeadInLog (s : Store) (branch : BranchName) : Prop :=
  ∀ b, s.selectBranch branch = some b → b.headSeq ≤ s.serverSeq

end Store

namespace Commit

open Store

variable {e : Engine} {s s' : Store} {o : ApplyCommitOptions} {sessionKey : JsString}
  {a : Admission} {r : AppliedCommit} {doc : DocInstance}

theorem Effect.selectBranch (h : Effect s s' o sessionKey a r) (name : BranchName) :
    s'.selectBranch name = (s.selectBranch name).map (raised o.branch s.nextSeq) := by
  rw [Store.selectBranch, Store.selectBranch, h.branches, List.find?_map]
  congr 2
  funext b
  simp only [Function.comp, (raised_spec o.branch s.nextSeq b).1]

/-- The rows a commit stored of an instance. -/
def rowsOn (revisions : List AppliedRevision) (doc : DocInstance) : List RevisionRow :=
  (rowsOfRevisions revisions).filter (·.doc = doc)

/-- An instance of the commit's branch without a row of the commit reads as before. -/
theorem Effect.documentAt_unwritten (hs : s.Sound) (hs' : s'.Sound)
    (h : Effect s s' o sessionKey a r) (hbranch : doc.branch = o.branch)
    (hnone : rowsOn r.revisions doc = []) : s'.documentAt doc none = s.documentAt doc none := by
  have hrows : s'.rowsOf doc = s.rowsOf doc := by rw [h.rowsOf, ← rowsOn, hnone, List.append_nil]
  have hwrote : WroteOn s s' doc.branch := hbranch ▸ h.wroteOn
  obtain ⟨more, hmore, _⟩ := hwrote.revisions
  have hsel' := h.selectBranch doc.branch
  cases hb : s.selectBranch doc.branch with
  | none =>
    rw [hb] at hsel'
    have hmissing : ∀ t : Store, t.selectBranch doc.branch = none →
        t.branches.length = s.branches.length → t.documentAt doc none =
          s.documentAt doc none := by
      intro t ht hlen
      simp only [documentAt, readRowForBranch, hlen]
      cases s.branches.length <;> simp [readRowFrom, requireBranch, ht, hb]
    exact hmissing s' hsel' hwrote.count
  | some state =>
    rw [hb] at hsel'
    have hread : s'.readRowForBranch doc none = s.readRowForBranch doc none := by
      rw [readRowForBranch_eq hs hb, readRowForBranch_eq hs' hsel']
      dsimp only
      rw [Option.getD_none, Option.getD_none, if_pos (show _ ∧ _ from hs'.head_inRange hsel'),
        if_pos (show _ ∧ _ from hs.head_inRange hb), rowsThrough_head hs hb,
        rowsThrough_head hs' hsel', hrows]
      obtain ⟨_, hparent, hfork, _, hle, _⟩ := raised_spec o.branch s.nextSeq state
      have hmem := (selectBranch_mem hb).1
      have hbelow : state.forkSeq.getD 0 ≤ state.headSeq :=
        (hs.forks state hmem).trans (hs.created state hmem)
      cases hlast : (s.rowsOf doc).getLast? with
      | some row => rfl
      | none =>
        dsimp only
        cases hp : state.parentBranch with
        | none => rw [inheritedRow, inheritedRow, hparent, hp]
        | some parent =>
          rw [inheritedRow_eq hs.toBranchesSound hmem hp,
            inheritedRow_eq hs'.toBranchesSound (selectBranch_mem hsel').1 (hparent.trans hp),
            hfork, Nat.min_eq_right hbelow, Nat.min_eq_right (hbelow.trans hle)]
          exact hwrote.readRow_ancestor hs hs' (.single ⟨state, hb, hp⟩) _ _ _
    cases hok : s.readRowForBranch doc none with
    | error err => simp only [documentAt, hread, hok]; rfl
    | ok row? =>
      exact documentAt_of_readRow hs hs' ⟨more, hmore.symm⟩ hok (hread.trans hok)

/-- A row read at a seq that was read before is read again, but for the head of the
commit's branch. -/
theorem Effect.readRowFrom_kept (hs : s.Sound) (hs' : s'.Sound) (hhead : r.revisions = [] ∨ s.HeadInLog o.branch)
    (h : Effect s s' o sessionKey a r) (id : EntityId) (key : ScopeKey) {row? : Option RevisionRow} :
    ∀ (n : Nat) (name : BranchName) (seq? : Option Nat), (seq? = none → name ≠ o.branch) →
      s.readRowFrom id key n name seq? = .ok row? → s'.readRowFrom id key n name seq? = .ok row? := by
  intro n
  induction n with
  | zero => intro name seq? _ hread; cases hread
  | succ n ih =>
    intro name seq? hne hread
    obtain ⟨state, hstate, hread⟩ := Except.bind_ok_iff.1 hread
    obtain ⟨hrange, hread⟩ := Except.check_ok_iff.1 hread
    have hb : s.selectBranch name = some state := requireBranch_ok_iff.1 hstate
    have hb' : s'.selectBranch name = some (raised o.branch s.nextSeq state) := by
      rw [h.selectBranch, hb]; rfl
    obtain ⟨hname, hparent, hfork, hcreated, hle, _⟩ := raised_spec o.branch s.nextSeq state
    have hseq : seq?.getD (raised o.branch s.nextSeq state).headSeq = seq?.getD state.headSeq := by
      cases seq? with
      | some q => rfl
      | none =>
        have hother : state.name ≠ o.branch := (selectBranch_mem hb).2 ▸ hne rfl
        simp [raised, hother]
    simp only [require_ok_iff, Bool.and_eq_true, decide_eq_true_eq] at hrange
    generalize seq?.getD state.headSeq = seq at hseq hrange hread
    -- The rows of the commit stand on its own branch, and after the seq.
    have hthrough : s'.rowsThrough ⟨name, id, key⟩ seq = s.rowsThrough ⟨name, id, key⟩ seq := by
      rw [Store.rowsThrough, Store.rowsThrough, h.rowsOf, List.filter_append,
        List.append_right_eq_self, List.filter_eq_nil_iff]
      intro row hrow
      obtain ⟨hrow, hdoc⟩ := List.mem_filter.1 hrow
      obtain ⟨x, hx, rfl⟩ := List.mem_map.1 hrow
      obtain ⟨hbranch, hseq, _⟩ := h.ofRow x hx
      simp only [decide_eq_true_eq] at hdoc ⊢
      rw [hdoc] at hbranch
      rcases hhead with hnil | hhead
      · rw [hnil] at hx; cases hx
      · have := hhead state (hbranch ▸ hb)
        have := hrange.2
        rw [hseq, nextSeq]
        omega
    simp only [readRowFrom, requireBranch_ok_iff.2 hb', Except.ok_bind, hseq, hcreated, hparent,
      hfork, require, hrange.1, hrange.2.trans hle, decide_true, Bool.and_self, if_true]
    rw [localRow_eq ⟨name, id, key⟩ hs' hb', hthrough]
    rw [localRow_eq ⟨name, id, key⟩ hs hb] at hread
    cases hlast : (s.rowsThrough ⟨name, id, key⟩ seq).getLast? with
    | some row => rw [hlast] at hread; exact hread
    | none =>
      rw [hlast] at hread
      cases hp : state.parentBranch with
      | none => rw [hp] at hread; exact hread
      | some parent =>
        rw [hp] at hread
        exact ih parent _ (by simp) hread

/-- A document of another branch that could be read is as it was. -/
theorem Effect.documentAt_other (hs : s.Sound) (hs' : s'.Sound) (hhead : r.revisions = [] ∨ s.HeadInLog o.branch)
    (h : Effect s s' o sessionKey a r) (hne : doc.branch ≠ o.branch) {d : Option EntityDocument}
    (hd : s.documentAt doc none = .ok d) : s'.documentAt doc none = .ok d := by
  obtain ⟨row?, hrow, _⟩ := Except.bind_ok_iff.1 (show s.documentAt doc none = .ok d from hd)
  have hrow' : s'.readRowForBranch doc none = .ok row? := by
    rw [readRowForBranch, h.wroteOn.count]
    exact h.readRowFrom_kept hs hs' hhead _ _ _ _ _ (fun _ => hne) hrow
  obtain ⟨more, hmore, _⟩ := h.wroteOn.revisions
  rw [documentAt_of_readRow hs hs' ⟨more, hmore.symm⟩ hrow hrow', hd]

end Commit

/-- Stating the base of an operation leaves what it names. -/
theorem OpField.withStatedBase_id {e : Engine} {s : Store} {doc : DocInstance}
    {op op' : ApplyOpOperation} (h : OpField.withStatedBase e s doc op = .ok op') :
    op'.id = op.id := by
  unfold OpField.withStatedBase at h
  split at h
  · cases h; rfl
  · obtain ⟨_, h⟩ := Except.check_ok_iff.1 h
    obtain ⟨_, _, h⟩ := Except.bind_ok_iff.1 h
    obtain ⟨_, _, h⟩ := Except.bind_ok_iff.1 h
    obtain ⟨_, h⟩ := Except.check_ok_iff.1 h
    split at h
    · split at h <;> cases h <;> rfl
    · cases h; rfl

namespace Commit

open Store Streams

variable {e : Engine} {s s' : Store} {o : ApplyCommitOptions} {sessionKey : JsString}
  {a : Admission} {r : AppliedCommit} {doc : DocInstance} {seq : Nat}

/-- The instance an operation of the commit writes. -/
def writtenDoc (o : ApplyCommitOptions) (step : Operation × Nat) : Option DocInstance :=
  match step.1.write? with
  | none => none
  | some w => match writeScopeKey w.scope o.actor (o.scopeKeyAt step.2) with
    | .ok key => some ⟨o.branch, w.id, key⟩
    | .error _ => none

/-- What an operation of the commit writes of an instance, when it is a document write of it. -/
def writeOn (o : ApplyCommitOptions) (doc : DocInstance) (step : Operation × Nat) :
    Option RevisionData :=
  if writtenDoc o step = some doc then step.1.write?.map (·.data) else none

/-- The operation is stored as it is given: it holds no stamped append, and is no effects
write of a derived commit. -/
def storedAsGiven (o : ApplyCommitOptions) (a : Admission) (step : Operation × Nat) : Bool :=
  (a.plan.filter (·.opIndex = step.2)).isEmpty &&
    !(o.commitClass = .derived && step.1.id? = some SERVER_EXECUTION_EFFECTS_DOC_ID)

/-- The rows of one operation of the commit. -/
structure StoredBy (o : ApplyCommitOptions) (a : Admission) (step : Operation × Nat)
    (added : List AppliedRevision) : Prop where
  index : ∀ x ∈ added, x.row.opIndex = step.2
  names : ∀ x ∈ added, step.1.id? = some x.row.doc.id ∨ isOperationAnchorsDocId x.row.doc.id = true
  elided : step.1.write?.isSome = true → a.reads.elidedOpIndexes.contains step.2 = true → added = []
  written : step.1.write?.isSome = true → a.reads.elidedOpIndexes.contains step.2 = false →
    ∃ x, added = [x] ∧ writtenDoc o step = some x.row.doc ∧
      (storedAsGiven o a step = true → step.1.write?.map (·.data) = some x.row.data)

theorem stampEventAppendOperation_ok {w w' : DocumentWrite} {stamps : List EventAppendStamp}
    (h : stampEventAppendOperation w stamps seq = .ok w') : w'.id = w.id ∧ w'.scope = w.scope := by
  obtain ⟨_, _, h⟩ := Except.bind_ok_iff.1 h
  cases h
  exact ⟨rfl, rfl⟩

theorem transformEffectsDocOperation_frame (t : Store) (w : DocumentWrite) (seq : Nat)
    (branch : BranchName) (scopeKey : Option ScopeKey) :
    (transformEffectsDocOperation t w seq branch scopeKey).id = w.id ∧
      (transformEffectsDocOperation t w seq branch scopeKey).scope = w.scope := by
  unfold transformEffectsDocOperation
  split <;> (try split) <;> exact ⟨rfl, rfl⟩

/-- A write made effective is of the same document; given as it is stored, it is the same. -/
theorem effectiveWrite_ok {t : Store} {opIndex : Nat} {stamps : List EventAppendStamp}
    {w w' : DocumentWrite} (h : effectiveWrite t o seq opIndex stamps w = .ok w') :
    w'.id = w.id ∧ w'.scope = w.scope ∧
      (stamps = [] → (o.commitClass = .derived && w.id = SERVER_EXECUTION_EFFECTS_DOC_ID) = false →
        w' = w) := by
  obtain ⟨stamped, hstamped, h⟩ := Except.bind_ok_iff.1 h
  have hsame : stamped.id = w.id ∧ stamped.scope = w.scope ∧ (stamps = [] → stamped = w) := by
    unfold appendStamped at hstamped
    split at hstamped
    · cases hstamped; exact ⟨rfl, rfl, fun _ => rfl⟩
    · rename_i hne
      obtain ⟨hid, hscope⟩ := stampEventAppendOperation_ok hstamped
      exact ⟨hid, hscope, fun hnil => absurd hnil hne⟩
  split at h
  · rename_i heffects
    cases h
    obtain ⟨hid, hscope⟩ := transformEffectsDocOperation_frame t stamped seq o.branch
      (o.scopeKeyAt opIndex)
    refine ⟨hid.trans hsame.1, hscope.trans hsame.2.1, fun _ hnot => ?_⟩
    rw [hsame.1, hnot] at heffects
    cases heffects
  · cases h
    exact ⟨hsame.1, hsame.2.1, fun hnil _ => hsame.2.2 hnil⟩

theorem writeDocument_stored {opIndex : Nat} {operation : Operation} {st st' : WriteState}
    {w : DocumentWrite} (hw : operation.write? = some w)
    (h : writeDocument e o a seq opIndex st w = .ok st') :
    ∃ added, st'.revisions = st.revisions ++ added ∧ StoredBy o a (operation, opIndex) added := by
  have hid : operation.id? = some w.id := by cases operation <;> cases hw <;> rfl
  obtain ⟨s₁, _, ⟨helided, rfl⟩ | ⟨helided, effective, key, s₂, revision, heffective, hkey, _, hrow,
    rfl⟩⟩ := writeDocument_ok h
  · refine ⟨[], by simp, by simp, by simp, fun _ _ => rfl, fun _ hnot => ?_⟩
    rw [helided] at hnot; cases hnot
  · obtain ⟨heid, hescope, hgiven⟩ := effectiveWrite_ok heffective
    have hdoc : revision.row.doc = ⟨o.branch, w.id, key⟩ := by rw [hrow, ← heid]; rfl
    refine ⟨[revision], rfl, ?_, ?_, ?_, fun _ _ => ⟨revision, rfl, ?_, fun hstored => ?_⟩⟩
    · intro x hx; obtain rfl := List.mem_singleton.1 hx; rw [hrow]; rfl
    · intro x hx; obtain rfl := List.mem_singleton.1 hx; exact .inl (by rw [hid, hdoc])
    · intro _ hcontains; rw [helided] at hcontains; cases hcontains
    · rw [hescope] at hkey
      simp [writtenDoc, hw, hkey, hdoc]
    · simp only [storedAsGiven, Bool.and_eq_true, List.isEmpty_iff, Bool.not_eq_true', hid,
        Option.some.injEq] at hstored
      rw [hw, hrow, hgiven hstored.1 hstored.2]
      rfl

theorem writeStep_stored {st st' : WriteState} {step : Operation × Nat}
    (h : writeStep e o a seq st step = .ok st') :
    ∃ added, st'.revisions = st.revisions ++ added ∧ StoredBy o a step added := by
  obtain ⟨operation, opIndex⟩ := step
  have hnone : ∀ operation : Operation, operation.write? = none → st'.revisions = st.revisions →
      ∃ added, st'.revisions = st.revisions ++ added ∧ StoredBy o a (operation, opIndex) added := by
    intro operation hw hrev
    exact ⟨[], by simpa using hrev, by simp, by simp, by simp [hw], by simp [hw]⟩
  cases operation with
  | set | patch | delete => exact writeDocument_stored rfl h
  | applyOp op =>
    obtain ⟨_, _, h⟩ := Except.bind_ok_iff.1 h
    obtain ⟨stated, hstated, h⟩ := Except.bind_ok_iff.1 h
    obtain ⟨⟨s₁, applied⟩, happly, h⟩ := Except.bind_ok_iff.1 h
    cases h
    obtain ⟨_, hof⟩ := OpField.applyOperation_wrote happly
    have hid : stated.id = op.id := OpField.withStatedBase_id hstated
    refine ⟨applied.revisions, rfl, fun x hx => (hof x hx).1, fun x hx => ?_, ?_, ?_⟩
    · rcases (hof x hx).2 with h | h
      · exact .inl (by rw [h, hid]; rfl)
      · exact .inr h
    · rintro ⟨⟩
    · rintro ⟨⟩
  | releaseOpField op =>
    obtain ⟨s₁, _, h⟩ := Except.bind_ok_iff.1 h
    cases h
    exact hnone _ rfl rfl
  | sqlite op =>
    obtain ⟨_, h⟩ := Except.check_ok_iff.1 h
    cases h
    exact hnone _ rfl rfl

/-- The revisions at an operation's index. -/
def revisionsAt (revisions : List AppliedRevision) (opIndex : Nat) : List AppliedRevision :=
  revisions.filter (·.row.opIndex = opIndex)

theorem revisionsAt_append (xs ys : List AppliedRevision) (i : Nat) :
    revisionsAt (xs ++ ys) i = revisionsAt xs i ++ revisionsAt ys i := List.filter_append _ _

theorem revisionsAt_self {xs : List AppliedRevision} {i : Nat}
    (h : ∀ x ∈ xs, x.row.opIndex = i) : revisionsAt xs i = xs :=
  List.filter_eq_self.2 fun x hx => by simpa using h x hx

theorem revisionsAt_nil {xs : List AppliedRevision} {i : Nat}
    (h : ∀ x ∈ xs, x.row.opIndex ≠ i) : revisionsAt xs i = [] :=
  List.filter_eq_nil_iff.2 fun x hx => by simpa using h x hx

/-- The revisions of a run are those of its operations, one operation after another. -/
theorem writeSteps_stored {steps : List (Operation × Nat)} {st st' : WriteState}
    (h : steps.foldlM (writeStep e o a seq) st = .ok st')
    (hsteps : steps.Pairwise fun x y => x.2 < y.2) :
    ∃ added, st'.revisions = st.revisions ++ added ∧
      added = steps.flatMap (fun step => revisionsAt added step.2) ∧
      ∀ step ∈ steps, StoredBy o a step (revisionsAt added step.2) := by
  induction steps generalizing st with
  | nil => cases h; exact ⟨[], by simp, rfl, by simp⟩
  | cons step steps ih =>
    obtain ⟨st₁, hstep, h⟩ := List.foldlM_cons_ok.1 h
    obtain ⟨hfirst, hrest⟩ := List.pairwise_cons.1 hsteps
    obtain ⟨block, hblock, hstored⟩ := writeStep_stored hstep
    obtain ⟨added, hadded, hflat, hsteps'⟩ := ih h hrest
    have hof : ∀ x ∈ added, ∃ step' ∈ steps, x.row.opIndex = step'.2 := by
      intro x hx
      rw [hflat] at hx
      obtain ⟨step', hs', hx⟩ := List.mem_flatMap.1 hx
      exact ⟨step', hs', by simpa using (List.mem_filter.1 hx).2⟩
    have hhead : revisionsAt (block ++ added) step.2 = block := by
      rw [revisionsAt_append, revisionsAt_self hstored.index, revisionsAt_nil, List.append_nil]
      intro x hx heq
      obtain ⟨step', hs', hx⟩ := hof x hx
      have := hfirst step' hs'
      omega
    have htail : ∀ step' ∈ steps, revisionsAt (block ++ added) step'.2 =
        revisionsAt added step'.2 := by
      intro step' hs'
      rw [revisionsAt_append, revisionsAt_nil, List.nil_append]
      intro x hx heq
      have := hstored.index x hx
      have := hfirst step' hs'
      omega
    refine ⟨block ++ added, by rw [hadded, hblock, List.append_assoc], ?_, ?_⟩
    · rw [List.flatMap_cons, hhead]
      congr 1
      conv_lhs => rw [hflat]
      exact List.flatMap_congr fun step' hs' => (htail step' hs').symm
    · intro step' hs'
      rcases List.mem_cons.1 hs' with rfl | hs'
      · rw [hhead]; exact hstored
      · rw [htail step' hs']; exact hsteps' step' hs'

/-- A commit's own rows, and the watermarks after them. -/
structure StoredRows (o : ApplyCommitOptions) (a : Admission) (r : AppliedCommit)
    (written maintained : List AppliedRevision) : Prop where
  revisions : r.revisions = written ++ maintained
  blocks : written = o.commit.operations.zipIdx.flatMap fun step => revisionsAt written step.2
  steps : ∀ step ∈ o.commit.operations.zipIdx, StoredBy o a step (revisionsAt written step.2)
  derived : maintained ≠ [] → o.commitClass = .derived
  sidecars : ∀ x ∈ maintained, ∃ y ∈ written, x.row.doc = y.row.doc ∧
    isStreamEntriesDocId x.row.doc.id = true

theorem maintainWatermarks_docs {ctx : WatermarkContext} {sidecars : List AppliedRevision}
    {t t' : Store} {n n' : Nat} {written written' : List AppliedRevision}
    (h : sidecars.foldlM (maintainWatermark ctx) (t, n, written) = .ok (t', n', written')) :
    ∃ added, written' = written ++ added ∧ ∀ x ∈ added, ∃ y ∈ sidecars,
      x.row.doc = ⟨ctx.branch, y.row.doc.id, y.row.doc.scopeKey⟩ := by
  induction sidecars generalizing t n written with
  | nil => cases h; exact ⟨[], by simp, by simp⟩
  | cons sidecar sidecars ih =>
    obtain ⟨⟨t₁, n₁, written₁⟩, hstep, h⟩ := List.foldlM_cons_ok.1 h
    obtain ⟨frontier, _, hstep⟩ := Except.bind_ok_iff.1 hstep
    have hrest := ih h
    cases frontier with
    | none =>
      cases hstep
      obtain ⟨added, hadded, hdocs⟩ := hrest
      exact ⟨added, hadded, fun x hx => (hdocs x hx).imp fun y hy =>
        ⟨List.mem_cons_of_mem _ hy.1, hy.2⟩⟩
    | some frontier =>
      obtain ⟨⟨t₂, applied⟩, hwrite, hstep⟩ := Except.bind_ok_iff.1 hstep
      cases hstep
      obtain ⟨key, hkey, _, rfl⟩ := writeOperation_ok hwrite
      cases hkey
      obtain ⟨added, hadded, hdocs⟩ := hrest
      refine ⟨_ :: added, by rw [hadded, List.append_assoc]; rfl, fun x hx => ?_⟩
      rcases List.mem_cons.1 hx with rfl | hx
      · exact ⟨sidecar, List.mem_cons_self, rfl⟩
      · obtain ⟨y, hy, hdoc⟩ := hdocs x hx
        exact ⟨y, List.mem_cons_of_mem _ hy, hdoc⟩

theorem mem_touch {x r : AppliedRevision} {sidecars : List AppliedRevision}
    (h : x ∈ touch sidecars r) : x ∈ sidecars ∨ x = r := by
  induction sidecars with
  | nil => simpa [touch] using h
  | cons t rest ih =>
    rw [touch] at h
    split at h
    · rcases List.mem_cons.1 h with rfl | h
      · exact .inr rfl
      · exact .inl (List.mem_cons_of_mem _ h)
    · rcases List.mem_cons.1 h with rfl | h
      · exact .inl List.mem_cons_self
      · exact (ih h).imp_left (List.mem_cons_of_mem _)

theorem mem_touchedSidecars {x : AppliedRevision} {revisions : List AppliedRevision}
    (h : x ∈ touchedSidecars revisions) :
    x ∈ revisions ∧ isStreamEntriesDocId x.row.doc.id = true := by
  have hfold : ∀ (l sidecars : List AppliedRevision), x ∈ l.foldl touch sidecars →
      x ∈ sidecars ∨ x ∈ l := by
    intro l
    induction l with
    | nil => intro sidecars h; exact .inl h
    | cons r l ih =>
      intro sidecars h
      rcases ih _ h with h | h
      · rcases mem_touch h with h | rfl
        · exact .inl h
        · exact .inr List.mem_cons_self
      · exact .inr (List.mem_cons_of_mem _ h)
  rcases hfold _ _ h with h | h
  · cases h
  · exact List.mem_filter.1 h

/-- The watermarks a commit keeps add rows of the sidecars it wrote. -/
theorem maintainWatermarks_sidecars {t t' : Store} {written revisions : List AppliedRevision}
    (h : maintainWatermarks t o seq written = .ok (t', revisions)) :
    ∃ maintained, revisions = written ++ maintained ∧
      (maintained ≠ [] → o.commitClass = .derived) ∧ ∀ x ∈ maintained, ∃ y ∈ written,
        isStreamEntriesDocId y.row.doc.id = true ∧
          x.row.doc = ⟨o.branch, y.row.doc.id, y.row.doc.scopeKey⟩ := by
  unfold maintainWatermarks at h
  split at h
  · rename_i hderived
    obtain ⟨⟨t₁, n, maintained⟩, hfold, h⟩ := Except.bind_ok_iff.1 h
    obtain ⟨maintained', hmaintained, hdocs⟩ := maintainWatermarks_docs hfold
    rw [List.nil_append] at hmaintained
    subst hmaintained
    refine ⟨maintained, (Prod.ext_iff.1 (Except.ok.inj h)).2.symm, fun _ => hderived, ?_⟩
    intro x hx
    obtain ⟨y, hy, hdoc⟩ := hdocs x hx
    obtain ⟨hy, hsidecar⟩ := mem_touchedSidecars hy
    exact ⟨y, hy, hsidecar, hdoc⟩
  · have hrevisions : revisions = written := (Prod.ext_iff.1 (Except.ok.inj h)).2.symm
    exact ⟨[], by rw [hrevisions, List.append_nil], by simp, by simp⟩

/-- The rows of an accepted commit. -/
theorem Accepted.storedRows (h : Accepted e s o sessionKey a s' r) :
    ∃ written maintained, StoredRows o a r written maintained := by
  obtain ⟨st, s₂, _, hsteps, hmaintain, _, _⟩ := writeCommit_ok h.written
  obtain ⟨added, hadded, hblocks, hstored⟩ := writeSteps_stored hsteps (zipIdx_ascending _)
  rw [List.nil_append] at hadded
  rw [hadded] at hmaintain
  obtain ⟨maintained, hrev, hderived, hdocs⟩ := maintainWatermarks_sidecars hmaintain
  refine ⟨added, maintained, hrev, hblocks, hstored, hderived, fun x hx => ?_⟩
  obtain ⟨y, hy, hsidecar, hdoc⟩ := hdocs x hx
  have hbranch : y.row.doc.branch = o.branch :=
    (h.effect.ofRow y (by rw [hrev]; exact List.mem_append_left _ hy)).1
  refine ⟨y, hy, ?_, by rw [hdoc]; exact hsidecar⟩
  rw [hdoc, ← hbranch]

/-- What an operation says of an instance: the write of one that is elided or stored as it
is given, and the rows of another. -/
def stepEntries (o : ApplyCommitOptions) (a : Admission) (written : List AppliedRevision)
    (doc : DocInstance) (step : Operation × Nat) :
    List (LogEntry (Option EntityDocument) (List PatchOp)) :=
  match writeOn o doc step with
  | some data =>
    if a.reads.elidedOpIndexes.contains step.2 || storedAsGiven o a step then [data.entry]
    else (rowsOn (revisionsAt written step.2) doc).map (·.data.entry)
  | none => (rowsOn (revisionsAt written step.2) doc).map (·.data.entry)

/-- What all operations of the commit say of an instance, elided ones included, in order. -/
def commitEntries (o : ApplyCommitOptions) (a : Admission) (written : List AppliedRevision)
    (doc : DocInstance) : List (LogEntry (Option EntityDocument) (List PatchOp)) :=
  o.commit.operations.zipIdx.flatMap (stepEntries o a written doc)

variable {written maintained : List AppliedRevision}

theorem writeOn_some {step : Operation × Nat} {data : RevisionData}
    (h : writeOn o doc step = some data) :
    writtenDoc o step = some doc ∧ step.1.write?.map (·.data) = some data := by
  unfold writeOn at h
  split at h
  · exact ⟨by assumption, h⟩
  · cases h

theorem rowsOn_append (xs ys : List AppliedRevision) (doc : DocInstance) :
    rowsOn (xs ++ ys) doc = rowsOn xs doc ++ rowsOn ys doc := by
  simp [rowsOn, rowsOfRevisions]

/-- The rows of an instance, operation by operation. -/
theorem StoredRows.rowsOn_eq (h : StoredRows o a r written maintained) (doc : DocInstance) :
    rowsOn written doc =
      o.commit.operations.zipIdx.flatMap fun step => rowsOn (revisionsAt written step.2) doc := by
  have hflat : ∀ (steps : List (Operation × Nat)) (f : Operation × Nat → List AppliedRevision),
      rowsOn (steps.flatMap f) doc = steps.flatMap fun step => rowsOn (f step) doc := by
    intro steps f
    induction steps with
    | nil => rfl
    | cons step steps ih => rw [List.flatMap_cons, List.flatMap_cons, rowsOn_append, ih]
  conv_lhs => rw [h.blocks]
  exact hflat _ _

/-- An instance of which no write is elided has the rows its operations say. -/
theorem StoredRows.entries_of_written (h : StoredRows o a r written maintained)
    (hwritten : ∀ step ∈ o.commit.operations.zipIdx, (writeOn o doc step).isSome = true →
      a.reads.elidedOpIndexes.contains step.2 = false) :
    commitEntries o a written doc = (rowsOn written doc).map (·.data.entry) := by
  rw [h.rowsOn_eq, List.map_flatMap, commitEntries]
  refine List.flatMap_congr fun step hstep => ?_
  unfold stepEntries
  split
  · rename_i data hdata
    split
    · rename_i hcond
      have helided := hwritten step hstep (by rw [hdata]; rfl)
      rw [helided, Bool.false_or] at hcond
      obtain ⟨hdoc, hwrite⟩ := writeOn_some hdata
      obtain ⟨x, hx, hxdoc, hgiven⟩ := (h.steps step hstep).written
        (by cases hw : step.1.write? with
          | none => rw [hw] at hwrite; cases hwrite
          | some w => rfl) helided
      rw [hdoc] at hxdoc
      have hxdata : x.row.data = data := by
        have := (hgiven hcond).symm.trans hwrite
        exact Option.some.inj this
      simp [hx, rowsOn, rowsOfRevisions, Option.some.inj hxdoc, hxdata]
    · rfl
  · rfl

/-- An instance without rows of whose writes all are elided: they say what they were given. -/
theorem StoredRows.entries_of_elided (hnone : rowsOn written doc = [])
    (helided : ∀ step ∈ o.commit.operations.zipIdx, (writeOn o doc step).isSome = true →
      a.reads.elidedOpIndexes.contains step.2 = true) :
    commitEntries o a written doc =
      (o.commit.operations.zipIdx.filterMap (writeOn o doc)).map (·.entry) := by
  have hat : ∀ i, rowsOn (revisionsAt written i) doc = [] := by
    intro i
    rw [rowsOn, List.filter_eq_nil_iff] at hnone ⊢
    intro row hrow
    obtain ⟨x, hx, rfl⟩ := List.mem_map.1 hrow
    exact hnone x.row (List.mem_map.2 ⟨x, (List.mem_filter.1 hx).1, rfl⟩)
  rw [commitEntries]
  generalize o.commit.operations.zipIdx = steps at helided
  induction steps with
  | nil => rfl
  | cons step steps ih =>
    rw [List.flatMap_cons, ih fun s hs => helided s (List.mem_cons_of_mem _ hs)]
    unfold stepEntries
    cases hw : writeOn o doc step with
    | none => simp [hw, hat]
    | some data =>
      have hmem := List.contains_iff_mem.1 (helided step List.mem_cons_self (by rw [hw]; rfl))
      simp [hw, hmem]

end Commit
