import CommonFabric.Resubmission
import CommonFabric.StoredOperations

/-!
# What is elided changes nothing

An operation is elided in one of two ways. The content-addressed pass leaves out the sets
of a `cid:` document that is stored already, all of them when it leaves out one. A commit
that is admitted as an identity leaves out every operation; what its operations do to each
document was tried on the stored document, and made no other of it.
-/

namespace ContentAddressed

open PassState

variable {e : Engine} {s : Store} {ctx : PassContext} {keys : List DocKey}

variable {id : EntityId} {done : List (Operation × Nat)}

/-- A read at the default scope, for whatever identity. -/
theorem read_space {scope : Option CellScope}
    (identity : ScopeKeyIdentity) (branch : BranchName) (h : normalizeScope scope = DEFAULT_SCOPE) :
    s.read noCache ⟨id, scope, identity, branch, none, none⟩ =
      s.documentAt ⟨branch, id, DEFAULT_SCOPE_KEY⟩ none := by
  have hkey : resolveScopeKey scope identity = .ok DEFAULT_SCOPE_KEY := by
    unfold resolveScopeKey
    rw [show scope.getD .space = .space from h]
  simp only [Store.read, Store.readState, Store.ReadOptions.resolve, hkey, Except.ok_bind,
    Store.readStateForScopeKey, Store.documentAt]
  cases s.readRowForBranch ⟨branch, id, DEFAULT_SCOPE_KEY⟩ none with
  | error err => rfl
  | ok row? =>
    cases row? with
    | none => rfl
    | some row =>
      simp only [Except.ok_bind]
      cases s.rowDocument noCache row <;> rfl

/-- The instance of a content-addressed document. -/
def cidDoc (branch : BranchName) (id : EntityId) : DocInstance := ⟨branch, id, DEFAULT_SCOPE_KEY⟩

/-- What the pass has established after some operations: each set of a `cid:` document is
of one value that hashes to the id, and is left out exactly when that is stored. -/
structure PassSpec (e : Engine) (s : Store) (ctx : PassContext) (done : List (Operation × Nat))
    (st : PassState) : Prop where
  sets : ∀ x ∈ done, ∀ id, x.1.id? = some id → isContentAddressed id = true →
    ∃ scope value, x.1 = .set id scope value ∧ normalizeScope scope = DEFAULT_SCOPE ∧
      st.cidSet id = some value
  installed : ∀ id value, st.cidSet id = some value → installsVerifiedContent e id value = true ∧
    if id ∈ st.elidableCidIds then s.documentAt (cidDoc ctx.branch id) none = .ok (some value)
    else s.documentAt (cidDoc ctx.branch id) none = .ok none
  elidable : ∀ id ∈ st.elidableCidIds, (st.cidSet id).isSome = true
  elided : ∀ i, i ∈ st.elidedOpIndexes ↔ ∃ x ∈ done, x.2 = i ∧ ∃ id, x.1.id? = some id ∧
    isContentAddressed id = true ∧ id ∈ st.elidableCidIds

theorem PassSpec.initial : PassSpec e s ctx [] PassState.initial where
  sets _ h := by cases h
  installed _ _ h := by cases h
  elidable _ h := by cases h
  elided i := by simp [PassState.initial]

theorem cidSet_append {st st' : PassState} {value : EntityDocument}
    (h : st'.cidSetsInCommit = st.cidSetsInCommit ++ [(id, value)]) (hnone : st.cidSet id = none)
    (id' : EntityId) : st'.cidSet id' = if id' = id then some value else st.cidSet id' := by
  rw [PassState.cidSet, h, List.find?_append]
  by_cases hid : id' = id
  · subst hid
    rw [PassState.cidSet, Option.map_eq_none_iff] at hnone
    simp [hnone]
  · have : List.find? (fun e => decide (e.1 = id')) [(id, value)] = none := by
      simp [Ne.symm hid]
    rw [this, if_neg hid, Option.or_none, PassState.cidSet]

theorem cidSet_of_sets {st st' : PassState} (h : st'.cidSetsInCommit = st.cidSetsInCommit)
    (id : EntityId) : st'.cidSet id = st.cidSet id := by
  rw [PassState.cidSet, PassState.cidSet, h]

/-- An operation on a document that is not content-addressed. -/
theorem PassSpec.ordinary {st st' : PassState}
    {step : Operation × Nat} (h : PassSpec e s ctx done st) (hgrew : PassState.Grew st st')
    (hnot : ∀ id, step.1.id? = some id → isContentAddressed id = false) :
    PassSpec e s ctx (done ++ [step]) st' where
  sets x hx id hid hcid := by
    rw [cidSet_of_sets hgrew.cidSets]
    rcases List.mem_append.1 hx with hx | hx
    · exact h.sets x hx id hid hcid
    · obtain rfl := List.mem_singleton.1 hx
      rw [hnot id hid] at hcid
      cases hcid
  installed id value hset := by
    rw [cidSet_of_sets hgrew.cidSets] at hset
    rw [hgrew.elidable]
    exact h.installed id value hset
  elidable id hid := by
    rw [hgrew.elidable] at hid
    rw [cidSet_of_sets hgrew.cidSets]
    exact h.elidable id hid
  elided i := by
    rw [hgrew.elided, hgrew.elidable, h.elided]
    constructor
    · rintro ⟨x, hx, hrest⟩
      exact ⟨x, List.mem_append_left _ hx, hrest⟩
    · rintro ⟨x, hx, hi, id, hid, hcid, hmem⟩
      rcases List.mem_append.1 hx with hx | hx
      · exact ⟨x, hx, hi, id, hid, hcid, hmem⟩
      · obtain rfl := List.mem_singleton.1 hx
        rw [hnot id hid] at hcid
        cases hcid

/-- The operation of one more set stands among those on some documents, or one before it does. -/
theorem exists_set_append
    (hcid : isContentAddressed id = true) (scope : Option CellScope) (value : EntityDocument)
    (opIndex i : Nat) (cids : List EntityId) :
    (∃ x ∈ done ++ [(Operation.set id scope value, opIndex)], x.2 = i ∧ ∃ id', x.1.id? = some id' ∧
        isContentAddressed id' = true ∧ id' ∈ cids) ↔
      (∃ x ∈ done, x.2 = i ∧ ∃ id', x.1.id? = some id' ∧ isContentAddressed id' = true ∧
        id' ∈ cids) ∨ (opIndex = i ∧ id ∈ cids) := by
  constructor
  · rintro ⟨x, hx, hi, id', hid', hcid', hmem⟩
    rcases List.mem_append.1 hx with hdone | hx
    · exact .inl ⟨x, hdone, hi, id', hid', hcid', hmem⟩
    · obtain rfl := List.mem_singleton.1 hx
      obtain rfl : id = id' := Option.some.inj hid'
      exact .inr ⟨hi, hmem⟩
  · rintro (⟨x, hx, hrest⟩ | ⟨hi, hmem⟩)
    · exact ⟨x, List.mem_append_left _ hx, hrest⟩
    · exact ⟨_, List.mem_append_right _ (List.mem_singleton_self _), hi, id, rfl, hcid, hmem⟩

/-- One more set of a `cid:` document. -/
theorem PassSpec.set {st st' : PassState}
    {scope : Option CellScope} {value : EntityDocument} {opIndex : Nat}
    (h : PassSpec e s ctx done st) (hcid : isContentAddressed id = true)
    (hscope : normalizeScope scope = DEFAULT_SCOPE)
    (hset : CidSetAdmitted e s ctx st opIndex id scope value st') :
    PassSpec e s ctx (done ++ [(.set id scope value, opIndex)]) st' := by
  -- The id as the operations so far have left it, when this set is its first.
  have hfirst : st.cidSet id = none → (∀ x ∈ done, x.1.id? ≠ some id) ∧ id ∉ st.elidableCidIds := by
    intro hnone
    refine ⟨fun x hx hid => ?_, fun hmem => ?_⟩
    · obtain ⟨_, _, _, _, hsome⟩ := h.sets x hx id hid hcid
      rw [hnone] at hsome; cases hsome
    · have := h.elidable id hmem
      rw [hnone] at this; cases this
  have hsets' : (∀ id', st'.cidSet id' = if id' = id then some value else st.cidSet id') →
      (∀ x ∈ done, x.1.id? ≠ some id) → ∀ x ∈ done ++ [(Operation.set id scope value, opIndex)],
      ∀ id', x.1.id? = some id' → isContentAddressed id' = true →
      ∃ scope value, x.1 = .set id' scope value ∧ normalizeScope scope = DEFAULT_SCOPE ∧
        st'.cidSet id' = some value := by
    intro hcidSet hnoop x hx id' hid' hcid'
    rw [hcidSet]
    rcases List.mem_append.1 hx with hdone | hx
    · obtain ⟨sc, v, hop, hsc, hv⟩ := h.sets x hdone id' hid' hcid'
      rw [if_neg (by rintro rfl; exact hnoop x hdone hid')]
      exact ⟨sc, v, hop, hsc, hv⟩
    · obtain rfl := List.mem_singleton.1 hx
      obtain rfl : id = id' := Option.some.inj hid'
      exact ⟨scope, value, rfl, hscope, if_pos rfl⟩
  cases hset with
  | stored hnone hread hhash hsets helidable helided =>
    obtain ⟨hnoop, hnotmem⟩ := hfirst hnone
    rw [read_space ctx.session ctx.branch hscope] at hread
    have hcidSet := cidSet_append hsets hnone
    refine ⟨hsets' hcidSet hnoop, ?_, ?_, ?_⟩
    · intro id' value' hset'
      rw [hcidSet] at hset'
      rw [helidable]
      split at hset'
      · rename_i heq
        obtain rfl := heq
        cases hset'
        exact ⟨hhash, by rw [if_pos (by simp)]; exact hread⟩
      · rename_i hne
        simpa [hne] using h.installed id' value' hset'
    · intro id' hmem
      rw [hcidSet]
      rw [helidable] at hmem
      split
      · rfl
      · rename_i hne
        exact h.elidable id' ((List.mem_append.1 hmem).resolve_right (by simpa using hne))
    · intro i
      rw [helided, List.mem_append, h.elided, exists_set_append hcid, helidable]
      apply or_congr
      · constructor
        · rintro ⟨x, hx, hi, id', hid', hcid', hmem⟩
          exact ⟨x, hx, hi, id', hid', hcid', List.mem_append_left _ hmem⟩
        · rintro ⟨x, hx, hi, id', hid', hcid', hmem⟩
          refine ⟨x, hx, hi, id', hid', hcid', (List.mem_append.1 hmem).resolve_right fun heq => ?_⟩
          exact hnoop x hx (by rw [hid', List.mem_singleton.1 heq])
      · simp [eq_comm]
  | fresh hnone hread hhash hsets helidable helided =>
    obtain ⟨hnoop, hnotmem⟩ := hfirst hnone
    rw [read_space ctx.session ctx.branch hscope] at hread
    have hcidSet := cidSet_append hsets hnone
    refine ⟨hsets' hcidSet hnoop, ?_, ?_, ?_⟩
    · intro id' value' hset'
      rw [hcidSet] at hset'
      rw [helidable]
      split at hset'
      · rename_i heq
        obtain rfl := heq
        cases hset'
        exact ⟨hhash, by rw [if_neg hnotmem]; exact hread⟩
      · exact h.installed id' value' hset'
    · intro id' hmem
      rw [hcidSet]
      rw [helidable] at hmem
      split
      · rfl
      · exact h.elidable id' hmem
    · intro i
      rw [helided, h.elided, exists_set_append hcid, helidable]
      exact (or_iff_left fun hnow => hnotmem hnow.2).symm
  | again hsome hsets helidable helided =>
    have hcidSet := cidSet_of_sets hsets
    constructor
    · intro x hx id' hid' hcid'
      rw [hcidSet]
      rcases List.mem_append.1 hx with hx | hx
      · exact h.sets x hx id' hid' hcid'
      · obtain rfl := List.mem_singleton.1 hx
        obtain rfl : id = id' := Option.some.inj hid'
        exact ⟨scope, value, rfl, hscope, hsome⟩
    · intro id' value' hset'
      rw [hcidSet] at hset'
      rw [helidable]
      exact h.installed id' value' hset'
    · intro id' hmem
      rw [helidable] at hmem
      rw [hcidSet]
      exact h.elidable id' hmem
    · intro i
      have hmem' : i ∈ st'.elidedOpIndexes ↔
          i ∈ st.elidedOpIndexes ∨ (opIndex = i ∧ id ∈ st.elidableCidIds) := by
        rw [helided]
        by_cases hin : st.elidableCidIds.contains id = true
        · rw [if_pos hin]
          simp [List.contains_iff_mem.1 hin, eq_comm]
        · rw [if_neg hin]
          simp [show id ∉ st.elidableCidIds from fun hm => hin (List.contains_iff_mem.2 hm)]
      rw [hmem', h.elided, exists_set_append hcid, helidable]

theorem scanOperations_spec {steps : List (Operation × Nat)} :
    ∀ {done : List (Operation × Nat)} {st st' : PassState},
      steps.foldlM (scanOperation e s ctx keys) st = .ok st' → PassSpec e s ctx done st →
      PassSpec e s ctx (done ++ steps) st' := by
  induction steps with
  | nil => intro done st st' h hspec; cases h; rw [List.append_nil]; exact hspec
  | cons step steps ih =>
    intro done st st' h hspec
    obtain ⟨operation, opIndex⟩ := step
    obtain ⟨st₁, hstep, h⟩ := List.foldlM_cons_ok.1 h
    rw [show done ++ (operation, opIndex) :: steps = done ++ [(operation, opIndex)] ++ steps by simp]
    refine ih h ?_
    rcases scanOperation_ok hstep with ⟨hgrew, hnot⟩ | ⟨id, scope, value, _, rfl, hcid, hscope, _, _,
      _, hset⟩
    · exact hspec.ordinary hgrew hnot
    · exact hspec.set hcid hscope hset

/-- What the pass over a whole commit has established. -/
theorem validateContentAddressed_spec {operations : List Operation} {elided : List Nat}
    (h : validateContentAddressed e s ctx operations = .ok elided) :
    ∃ st, PassSpec e s ctx operations.zipIdx st ∧ st.elidedOpIndexes = elided := by
  obtain ⟨keys, _, h⟩ := Except.bind_ok_iff.1 h
  obtain ⟨st, hsteps, h⟩ := Except.bind_ok_iff.1 h
  obtain ⟨_, h⟩ := Except.check_ok_iff.1 h
  obtain ⟨_, h⟩ := Except.check_ok_iff.1 h
  cases h
  exact ⟨st, by simpa using scanOperations_spec hsteps PassSpec.initial, rfl⟩

end ContentAddressed

namespace Identity

open ContentAddressed

variable {ctx : PassContext} {elided : List Nat}

/-- The writes grouped under a key. -/
def groupOf (groups : List DocGroup) (key : DocKey) : List RevisionData :=
  ((groups.find? (·.key = key)).map (·.writes)).getD []

theorem groupOf_add (key key' : DocKey) (scope : Option CellScope) (data : RevisionData)
    (groups : List DocGroup) : groupOf (addToGroup key scope data groups) key' =
      if key = key' then groupOf groups key' ++ [data] else groupOf groups key' := by
  induction groups with
  | nil =>
    by_cases h : key = key'
    · simp [addToGroup, groupOf, h]
    · simp [addToGroup, groupOf, h]
  | cons g groups ih =>
    unfold addToGroup
    by_cases hg : g.key = key
    · rw [if_pos hg]
      by_cases h : key = key'
      · simp [groupOf, hg, h]
      · have : g.key ≠ key' := fun heq => h (hg.symm.trans heq)
        simp [groupOf, h, this]
    · rw [if_neg hg]
      by_cases h : g.key = key'
      · have hne : key ≠ key' := fun heq => hg (h.trans heq.symm)
        simp [groupOf, h, hne]
      · rw [show groupOf (g :: addToGroup key scope data groups) key' =
          groupOf (addToGroup key scope data groups) key' by simp [groupOf, h], ih,
          show groupOf (g :: groups) key' = groupOf groups key' by simp [groupOf, h]]

/-- What a step adds to the group under a key. -/
def groupedWrite (ctx : PassContext) (key : DocKey) (step : Operation × Nat) : Option RevisionData :=
  match setOrPatch? step.1 with
  | none => none
  | some w =>
    if isContentAddressed w.id then none
    else match opDocKey ctx step.2 w.id w.scope with
      | .ok key' => if key' = key then some w.data else none
      | .error _ => none

theorem groupStep_ok {groups groups' : List DocGroup} {step : Operation × Nat}
    (h : groupStep ctx elided groups step = .ok (some groups')) :
    (∃ w, setOrPatch? step.1 = some w ∧
      (isContentAddressed w.id = true → step.2 ∈ elided)) ∧
      ∀ key, groupOf groups' key = groupOf groups key ++ (groupedWrite ctx key step).toList := by
  unfold groupStep at h
  split at h
  · cases h
  · rename_i w hw
    split at h
    · cases h
    · split at h
      · rename_i hcid
        split at h
        · rename_i hmem
          cases h
          refine ⟨⟨w, hw, fun _ => List.contains_iff_mem.1 hmem⟩, fun key => ?_⟩
          simp [groupedWrite, hw, hcid]
        · cases h
      · rename_i hcid
        obtain ⟨key, hkey, h⟩ := Except.bind_ok_iff.1 h
        cases h
        refine ⟨⟨w, hw, fun hc => absurd hc hcid⟩, fun key' => ?_⟩
        rw [groupOf_add]
        by_cases heq : key = key'
        · simp [groupedWrite, hw, hcid, hkey, heq]
        · simp [groupedWrite, hw, hcid, hkey, heq]

/-- Every step is a `set` or a `patch`, a content-addressed one left out already, and the
group of each key holds the writes under it in order. -/
theorem groupWrites_spec {steps : List (Operation × Nat)} : ∀ {groups groups' : List DocGroup},
    groupWrites ctx elided groups steps = .ok (some groups') →
      (∀ step ∈ steps, ∃ w, setOrPatch? step.1 = some w ∧
        (isContentAddressed w.id = true → step.2 ∈ elided)) ∧
      ∀ key, groupOf groups' key = groupOf groups key ++ steps.filterMap (groupedWrite ctx key) := by
  induction steps with
  | nil => intro groups groups' h; cases h; exact ⟨by simp, by simp⟩
  | cons step steps ih =>
    intro groups groups' h
    obtain ⟨next, hstep, h⟩ := Except.bind_ok_iff.1 h
    cases next with
    | none => cases h
    | some next =>
      obtain ⟨hfirst, hgroup⟩ := groupStep_ok hstep
      obtain ⟨hrest, hgroups⟩ := ih h
      refine ⟨fun step' hs' => ?_, fun key => ?_⟩
      · rcases List.mem_cons.1 hs' with rfl | hs'
        · exact hfirst
        · exact hrest step' hs'
      · rw [hgroups, hgroup, List.append_assoc, List.filterMap_cons]
        cases groupedWrite ctx key step <;> rfl

theorem allIdentity_ok {s : Store} {ctx : ProofContext} {groups : List DocGroup}
    (h : allIdentity s ctx groups = .ok true) :
    ∀ g ∈ groups, groupIsIdentity s ctx g = .ok true := by
  induction groups with
  | nil => intro g hg; cases hg
  | cons g groups ih =>
    obtain ⟨proved, hproved, h⟩ := Except.bind_ok_iff.1 h
    cases proved with
    | false => cases h
    | true =>
      intro g' hg'
      rcases List.mem_cons.1 hg' with rfl | hg'
      · exact hproved
      · exact ih h g' hg'

/-- A proved group makes the stored document of the view it was computed on, and leaves it
unless that was not asked. -/
theorem groupIsIdentity_ok {s : Store} {ctx : ProofContext} {g : DocGroup} {doc : DocInstance}
    (h : groupIsIdentity s ctx g = .ok true)
    (hdoc : doc = ⟨ctx.pass.branch, g.key.id, g.key.scopeKey⟩) :
    ∃ stored view, s.documentAt doc none = .ok (some stored) ∧
      basisOf s ctx doc g.scope stored = .ok (some view) ∧
      replay view g.writes = .ok (some stored) ∧
      (ctx.elidedVerdicts = false → replay (some stored) g.writes = .ok (some stored)) := by
  obtain ⟨document, hdocument, h⟩ := Except.bind_ok_iff.1 h
  rw [← hdoc] at hdocument h
  cases document with
  | none => cases h
  | some stored =>
    dsimp only at h
    split at h
    · rename_i proved hproved
      cases h
      obtain ⟨basis, hbasis, hproved⟩ := Except.bind_ok_iff.1 hproved
      cases basis with
      | none => cases hproved
      | some view =>
        obtain ⟨fromBasis, hfrom, hproved⟩ := Except.bind_ok_iff.1 hproved
        split at hproved
        · cases hproved
        · rename_i heq
          rw [not_not] at heq
          refine ⟨stored, view, hdocument, hbasis, heq ▸ hfrom, fun hverdicts => ?_⟩
          rw [hverdicts] at hproved
          obtain ⟨onStored, honStored, hproved⟩ := Except.bind_ok_iff.1 hproved
          obtain rfl : onStored = some stored := by simpa using Except.ok.inj hproved
          exact honStored
    · cases h

/-- Writes replayed without failure, as log entries. -/
theorem replay_entries {writes : List RevisionData} : ∀ {base d : Option EntityDocument},
    replay base writes = .ok d →
      ReplayLog.replay applyRevision (.ok base) (writes.map (·.entry)) = .ok d := by
  induction writes with
  | nil => intro base d h; cases h; rfl
  | cons data writes ih =>
    intro base d h
    obtain ⟨mid, hmid, h⟩ := List.foldlM_cons_ok.1 h
    rw [List.map_cons, ReplayLog.replay_cons]
    have : ReplayLog.step applyRevision (.ok base) data.entry = .ok mid := by
      cases data with
      | set value => cases hmid; rfl
      | delete => cases hmid; rfl
      | patch patches => exact hmid
    rw [this]
    exact ih h

end Identity

namespace Commit

open Store ContentAddressed

variable {e : Engine} {s : Store} {o : ApplyCommitOptions} {sessionKey : JsString}
  {a : Admission} {doc : DocInstance}

theorem isContentAddressed_of_anchors {id : EntityId} (h : isOperationAnchorsDocId id = true) :
    isContentAddressed id = false := by
  obtain ⟨units⟩ := id
  rw [isOperationAnchorsDocId, JsString.startsWith, List.isPrefixOf_iff_prefix] at h
  obtain ⟨rest, hrest⟩ := h
  rw [isContentAddressed, JsString.startsWith, ← hrest]
  rfl

variable {step : Operation × Nat} {st : PassState}

theorem id?_of_writtenDoc (h : writtenDoc o step = some doc) :
    step.1.id? = some doc.id ∧ doc.branch = o.branch := by
  unfold writtenDoc at h
  split at h
  · cases h
  · rename_i w hw
    split at h
    · cases h
      refine ⟨?_, rfl⟩
      cases hop : step.1 <;> rw [hop] at hw <;> cases hw <;> rfl
    · cases h

/-- An operation at the default scope writes the instance of the default key. -/
theorem Admitted.scopeKey_default (h : Admitted e s o sessionKey a)
    {id : EntityId} {scope : Option CellScope} {value : EntityDocument}
    (hstep : step ∈ o.commit.operations.zipIdx) (hop : step.1 = .set id scope value)
    (hscope : normalizeScope scope = DEFAULT_SCOPE) :
    writtenDoc o step = some (cidDoc o.branch id) := by
  obtain ⟨operation, opIndex⟩ := step
  obtain rfl : operation = .set id scope value := hop
  have hkey : o.scopeKeyAt opIndex = none := by
    unfold ApplyCommitOptions.scopeKeyAt
    split
    · rename_i hderived
      have hall := h.scopes
      unfold checkScopes at hall
      rw [if_pos hderived] at hall
      have hcheck := List.forM_ok_mem hall hstep
      unfold checkDerivedScope at hcheck
      simp only [Operation.isSqlite, Operation.scope?, hscope] at hcheck
      cases hann : o.annotatedKey opIndex with
      | none => rfl
      | some annotated => rw [hann] at hcheck; cases hcheck
    · rfl
  have hresolve : resolveScopeKey scope o.actor = .ok DEFAULT_SCOPE_KEY := by
    unfold resolveScopeKey
    rw [show scope.getD .space = .space from hscope]
  simp [writtenDoc, Operation.write?, hkey, writeScopeKey, hresolve, cidDoc]

/-- Resets to what stands already leave it. -/
theorem replay_resets {entries : List (LogEntry (Option EntityDocument) (List PatchOp))}
    {d : Option EntityDocument} (h : ∀ x ∈ entries, x = .reset d) :
    ReplayLog.replay applyRevision (.ok d) entries = .ok d := by
  induction entries with
  | nil => rfl
  | cons x entries ih =>
    obtain rfl := h x List.mem_cons_self
    exact ih fun y hy => h y (List.mem_cons_of_mem _ hy)

/-- The commit's writes of the instance are all elided, none of its operations stores a row
of it, and the writes leave the document the instance shows. -/
structure ElidedOn (s : Store) (o : ApplyCommitOptions) (a : Admission) (doc : DocInstance) :
    Prop where
  all : ∀ step ∈ o.commit.operations.zipIdx, (writeOn o doc step).isSome = true →
    a.reads.elidedOpIndexes.contains step.2 = true
  rowless : ∀ step ∈ o.commit.operations.zipIdx, ∀ added, StoredBy o a step added →
    rowsOn added doc = []
  identity : ReplayLog.replay applyRevision (s.documentAt doc none)
    ((o.commit.operations.zipIdx.filterMap (writeOn o doc)).map (·.entry)) = s.documentAt doc none

/-- Rows of an operation that is elided when it is a document write of the instance. -/
theorem rowsOn_nil_of_elided {added : List AppliedRevision} (hstored : StoredBy o a step added)
    (hwrite : step.1.id? = some doc.id → step.1.write?.isSome = true)
    (helided : (writeOn o doc step).isSome = true → a.reads.elidedOpIndexes.contains step.2 = true)
    (hanchors : isOperationAnchorsDocId doc.id = true → step.1.write?.isSome = true) :
    rowsOn added doc = [] := by
  rw [rowsOn, List.filter_eq_nil_iff]
  intro row hrow
  obtain ⟨x, hx, rfl⟩ := List.mem_map.1 hrow
  simp only [decide_eq_true_eq]
  rintro rfl
  have hsome : step.1.write?.isSome = true := (hstored.names x hx).elim hwrite hanchors
  cases hcontains : a.reads.elidedOpIndexes.contains step.2 with
  | true => rw [hstored.elided hsome hcontains] at hx; cases hx
  | false =>
    obtain ⟨y, hy, hdoc, _⟩ := hstored.written hsome hcontains
    rw [hy, List.mem_singleton] at hx
    subst hx
    have := helided (by rw [writeOn, if_pos hdoc]; simpa using hsome)
    rw [hcontains] at this
    cases this

/-- The instance an operation on a `cid:` document writes. -/
theorem Admitted.writtenDoc_cid (h : Admitted e s o sessionKey a)
    (hspec : PassSpec e s o.passContext o.commit.operations.zipIdx st)
    (hstep : step ∈ o.commit.operations.zipIdx)
    (hdoc : writtenDoc o step = some doc) (hcid : isContentAddressed doc.id = true) :
    doc = cidDoc o.branch doc.id := by
  obtain ⟨scope, value, hop, hscope, _⟩ :=
    hspec.sets step hstep doc.id (id?_of_writtenDoc hdoc).1 hcid
  rw [h.scopeKey_default hstep hop hscope] at hdoc
  exact (Option.some.inj hdoc).symm

/-- A stored `cid:` document that the commit sets again. -/
theorem elidedOn_cid (hspec : PassSpec e s o.passContext o.commit.operations.zipIdx st)
    (helided : ∀ i ∈ st.elidedOpIndexes, i ∈ a.reads.elidedOpIndexes) {id : EntityId}
    (hcid : isContentAddressed id = true) (hmem : id ∈ st.elidableCidIds) :
    ElidedOn s o a (cidDoc o.branch id) := by
  obtain ⟨value, hset⟩ := Option.isSome_iff_exists.1 (hspec.elidable id hmem)
  have hstored := (hspec.installed _ _ hset).2
  rw [if_pos hmem] at hstored
  have hall : ∀ step ∈ o.commit.operations.zipIdx,
      (writeOn o (cidDoc o.branch id) step).isSome = true →
      a.reads.elidedOpIndexes.contains step.2 = true := by
    intro step hstep hwrite
    obtain ⟨data, hdata⟩ := Option.isSome_iff_exists.1 hwrite
    have hid := (id?_of_writtenDoc (writeOn_some hdata).1).1
    exact List.contains_iff_mem.2
      (helided _ ((hspec.elided _).2 ⟨step, hstep, rfl, _, hid, hcid, hmem⟩))
  refine ⟨hall, fun step hstep added hadded => ?_, ?_⟩
  · refine rowsOn_nil_of_elided hadded (fun hid => ?_) (hall step hstep) fun hanchors => ?_
    · obtain ⟨_, _, hop, _⟩ := hspec.sets step hstep _ hid hcid
      rw [hop]; rfl
    · have : isContentAddressed id = false := isContentAddressed_of_anchors hanchors
      rw [hcid] at this
      cases this
  · rw [show s.documentAt (cidDoc o.branch id) none = .ok (some value) from hstored]
    refine replay_resets fun x hx => ?_
    obtain ⟨data, hdata, rfl⟩ := List.mem_map.1 hx
    obtain ⟨step, hstep, hwrite⟩ := List.mem_filterMap.1 hdata
    obtain ⟨hdoc, hdata⟩ := writeOn_some hwrite
    obtain ⟨_, value', hop, _, hset'⟩ := hspec.sets step hstep _ (id?_of_writtenDoc hdoc).1 hcid
    rw [show st.cidSet (cidDoc o.branch id).id = some value from hset] at hset'
    rw [hop] at hdata
    cases hset'
    obtain rfl : RevisionData.set value = data := Option.some.inj hdata
    rfl

theorem write?_eq_of_setOrPatch? {operation : Operation} {w : DocumentWrite}
    (hw : Identity.setOrPatch? operation = some w) : operation.write? = some w := by
  unfold Identity.setOrPatch? at hw
  cases hw' : operation.write? with
  | none => rw [hw'] at hw; cases hw
  | some w' => rw [hw', Option.filter_eq_some_iff] at hw; rw [hw.1]

theorem write?_id {operation : Operation} {w : DocumentWrite} (h : operation.write? = some w) :
    operation.id? = some w.id := by
  cases operation <;> cases h <;> rfl

/-- The writes of an instance are those of the group under its key. -/
theorem writesOn_eq_groupOf {groups : List Identity.DocGroup} {elided : List Nat}
    (hgroups : Identity.groupWrites o.passContext elided [] o.commit.operations.zipIdx =
      .ok (some groups)) (hbranch : doc.branch = o.branch)
    (hcid : isContentAddressed doc.id = false) :
    o.commit.operations.zipIdx.filterMap (writeOn o doc) =
      Identity.groupOf groups ⟨doc.id, doc.scopeKey⟩ := by
  obtain ⟨hsteps, hgrouped⟩ := Identity.groupWrites_spec hgroups
  have hgroup := hgrouped ⟨doc.id, doc.scopeKey⟩
  rw [show Identity.groupOf [] (⟨doc.id, doc.scopeKey⟩ : DocKey) = [] from rfl,
    List.nil_append] at hgroup
  rw [hgroup]
  refine List.filterMap_congr fun step hstep => ?_
  obtain ⟨w, hw, _⟩ := hsteps step hstep
  have hwrite := write?_eq_of_setOrPatch? hw
  simp only [writeOn, writtenDoc, hwrite, Identity.groupedWrite, hw, opDocKey,
    ApplyCommitOptions.passContext]
  cases hkey : writeScopeKey w.scope o.actor (o.scopeKeyAt step.2) with
  | error err => by_cases hc : isContentAddressed w.id = true <;> simp [hc]
  | ok key =>
    simp only [Except.ok_bind, Option.some.injEq, Option.map_some]
    have hiff : (⟨o.branch, w.id, key⟩ : DocInstance) = doc ↔
        (⟨w.id, key⟩ : DocKey) = ⟨doc.id, doc.scopeKey⟩ := by
      rw [← hbranch]
      constructor
      · intro heq; rw [← heq]
      · intro heq
        have h₁ : w.id = doc.id := congrArg DocKey.id heq
        have h₂ : key = doc.scopeKey := congrArg DocKey.scopeKey heq
        rw [h₁, h₂]
    by_cases heq : (⟨o.branch, w.id, key⟩ : DocInstance) = doc
    · have hc : isContentAddressed w.id = false := by rw [← hcid, ← heq]
      rw [if_pos heq, hc, if_pos (hiff.1 heq)]
      rfl
    · rw [if_neg heq, if_neg (fun h => heq (hiff.2 h))]
      split <;> rfl

/-- What the proof of an identity commit established of an instance it writes. -/
structure ProvedOn (s : Store) (o : ApplyCommitOptions) (sessionKey : JsString)
    (doc : DocInstance) (stored : EntityDocument) : Prop where
  document : s.documentAt doc none = .ok (some stored)
  view : ∃ scope view, Identity.basisOf s ⟨o.passContext, sessionKey, o.commit, o.elidedVerdicts⟩
      doc scope stored = .ok (some view) ∧
    ReplayLog.replay applyRevision (.ok view)
      ((o.commit.operations.zipIdx.filterMap (writeOn o doc)).map (·.entry)) = .ok (some stored)
  onStored : o.elidedVerdicts = false → ReplayLog.replay applyRevision (.ok (some stored))
    ((o.commit.operations.zipIdx.filterMap (writeOn o doc)).map (·.entry)) = .ok (some stored)

theorem provedOn_group {groups : List Identity.DocGroup} {elided : List Nat}
    (hgroups : Identity.groupWrites o.passContext elided [] o.commit.operations.zipIdx =
      .ok (some groups))
    (hidentity : Identity.allIdentity s ⟨o.passContext, sessionKey, o.commit, o.elidedVerdicts⟩
      groups = .ok true)
    (hbranch : doc.branch = o.branch) (hcid : isContentAddressed doc.id = false)
    (hstep : step ∈ o.commit.operations.zipIdx) (hwrite : (writeOn o doc step).isSome = true) :
    ∃ stored, ProvedOn s o sessionKey doc stored := by
  have hwrites := writesOn_eq_groupOf hgroups hbranch hcid
  obtain ⟨data, hdata⟩ := Option.isSome_iff_exists.1 hwrite
  have hmem : data ∈ Identity.groupOf groups ⟨doc.id, doc.scopeKey⟩ :=
    hwrites ▸ List.mem_filterMap.2 ⟨step, hstep, hdata⟩
  rw [Identity.groupOf] at hmem hwrites
  cases hfind : groups.find? (·.key = ⟨doc.id, doc.scopeKey⟩) with
  | none => rw [hfind] at hmem; cases hmem
  | some g =>
    rw [hfind] at hwrites
    have hkey : g.key = ⟨doc.id, doc.scopeKey⟩ := by simpa using List.find?_some hfind
    have hdoc : doc = ⟨o.branch, g.key.id, g.key.scopeKey⟩ := by
      rw [hkey, ← hbranch]
    obtain ⟨stored, view, hstored, hview, hfrom, hon⟩ := Identity.groupIsIdentity_ok
      (Identity.allIdentity_ok hidentity g (List.mem_of_find?_eq_some hfind)) hdoc
    refine ⟨stored, hstored, ⟨g.scope, view, hview, ?_⟩, fun hverdicts => ?_⟩
    · rw [hwrites]; exact Identity.replay_entries hfrom
    · rw [hwrites]; exact Identity.replay_entries (hon hverdicts)

/-- An instance that no operation of the commit writes, where all are left out. -/
theorem elidedOn_unwritten
    (hsteps : ∀ step ∈ o.commit.operations.zipIdx, step.1.write?.isSome = true)
    (hall : ∀ step ∈ o.commit.operations.zipIdx, a.reads.elidedOpIndexes.contains step.2 = true)
    (hnone : ∀ step ∈ o.commit.operations.zipIdx, writeOn o doc step = none) :
    ElidedOn s o a doc := by
  refine ⟨fun step hstep _ => hall step hstep, fun step hstep added hadded => ?_, ?_⟩
  · rw [hadded.elided (hsteps step hstep) (hall step hstep)]; rfl
  · rw [List.filterMap_eq_nil_iff.2 hnone]
    rfl

theorem step_eq_of_index {operations : List Operation} {x y : Operation × Nat}
    (hx : x ∈ operations.zipIdx) (hy : y ∈ operations.zipIdx) (h : x.2 = y.2) : x = y := by
  rcases Query.eq_or_related_of_pairwise (zipIdx_ascending _) hx hy with rfl | hlt | hlt
  · rfl
  · omega
  · omega

/-- What an identity commit writes is a stored `cid:` document, or was proved. -/
theorem Admitted.identity_cases (h : Admitted e s o sessionKey a)
    (hspec : PassSpec e s o.passContext o.commit.operations.zipIdx st)
    (hidentity : Identity.isIdentityCommit s ⟨o.passContext, sessionKey, o.commit, o.elidedVerdicts⟩
      st.elidedOpIndexes = .ok true) (hstep : step ∈ o.commit.operations.zipIdx)
    (hwrite : (writeOn o doc step).isSome = true) :
    (doc = cidDoc o.branch doc.id ∧ isContentAddressed doc.id = true ∧
        doc.id ∈ st.elidableCidIds) ∨
      isContentAddressed doc.id = false ∧ ∃ stored, ProvedOn s o sessionKey doc stored := by
  unfold Identity.isIdentityCommit at hidentity
  split at hidentity
  · cases hidentity
  obtain ⟨groups?, hgroups, hidentity⟩ := Except.bind_ok_iff.1 hidentity
  cases groups? with
  | none => cases hidentity
  | some groups =>
    obtain ⟨hsteps, _⟩ := Identity.groupWrites_spec hgroups
    obtain ⟨data, hdata⟩ := Option.isSome_iff_exists.1 hwrite
    obtain ⟨hdoc, _⟩ := writeOn_some hdata
    obtain ⟨hid, hbranch⟩ := id?_of_writtenDoc hdoc
    cases hcid : isContentAddressed doc.id with
    | true =>
      refine .inl ⟨h.writtenDoc_cid hspec hstep hdoc hcid, rfl, ?_⟩
      -- The step is one that the pass left out, so its document is stored.
      obtain ⟨w, hw, hmem⟩ := hsteps step hstep
      have hwid : w.id = doc.id :=
        Option.some.inj ((write?_id (write?_eq_of_setOrPatch? hw)).symm.trans hid)
      obtain ⟨x, hx, hindex, id, hxid, _, hidmem⟩ :=
        (hspec.elided step.2).1 (hmem (hwid ▸ hcid))
      obtain rfl := step_eq_of_index hx hstep hindex
      rw [hid] at hxid
      exact Option.some.inj hxid ▸ hidmem
    | false => exact .inr ⟨rfl, provedOn_group hgroups hidentity hbranch hcid hstep hwrite⟩

theorem Identity.isIdentityCommit_writes {s : Store} {ctx : Identity.ProofContext}
    {elided : List Nat} (h : Identity.isIdentityCommit s ctx elided = .ok true) :
    ∀ step ∈ ctx.commit.operations.zipIdx, step.1.write?.isSome = true := by
  unfold Identity.isIdentityCommit at h
  split at h
  · cases h
  obtain ⟨groups?, hgroups, h⟩ := Except.bind_ok_iff.1 h
  cases groups? with
  | none => cases h
  | some groups =>
    intro step hstep
    obtain ⟨w, hw, _⟩ := (Identity.groupWrites_spec hgroups).1 step hstep
    rw [write?_eq_of_setOrPatch? hw]
    rfl

/-- Where a commit is admitted as an identity, every instance is. -/
theorem Admitted.elidedOn_identity (h : Admitted e s o sessionKey a)
    (hspec : PassSpec e s o.passContext o.commit.operations.zipIdx st)
    (hidentity : Identity.isIdentityCommit s ⟨o.passContext, sessionKey, o.commit, o.elidedVerdicts⟩
      st.elidedOpIndexes = .ok true)
    (hall : ∀ step ∈ o.commit.operations.zipIdx, a.reads.elidedOpIndexes.contains step.2 = true)
    (hverdicts : o.elidedVerdicts = false) (doc : DocInstance) : ElidedOn s o a doc := by
  have hwrites := Identity.isIdentityCommit_writes hidentity
  by_cases hany : ∃ step ∈ o.commit.operations.zipIdx, (writeOn o doc step).isSome = true
  · obtain ⟨step, hstep, hwrite⟩ := hany
    rcases h.identity_cases hspec hidentity hstep hwrite with ⟨hdoc, hcid, hmem⟩ | ⟨_, stored, hproved⟩
    · rw [hdoc]
      refine elidedOn_cid hspec (fun i hi => ?_) hcid hmem
      obtain ⟨x, hx, hindex, _⟩ := (hspec.elided i).1 hi
      exact hindex ▸ List.contains_iff_mem.1 (hall x hx)
    · refine ⟨fun step hstep _ => hall step hstep, fun step hstep added hadded => ?_, ?_⟩
      · rw [hadded.elided (hwrites step hstep) (hall step hstep)]; rfl
      · rw [hproved.document]
        exact hproved.onStored hverdicts
  · refine elidedOn_unwritten hwrites hall fun step hstep => ?_
    by_contra hwrite
    exact hany ⟨step, hstep, Option.isSome_iff_ne_none.2 hwrite⟩

/-- Of every instance either no write is elided, or all are, to no effect. The one
exception is an identity commit whose proof took the commit's word for it. -/
theorem Admitted.elided_cases (h : Admitted e s o sessionKey a)
    (hverdicts : a.reads.tookIdentityEscape = true → o.elidedVerdicts = false) (doc : DocInstance) :
    (∀ step ∈ o.commit.operations.zipIdx, (writeOn o doc step).isSome = true →
      a.reads.elidedOpIndexes.contains step.2 = false) ∨ ElidedOn s o a doc := by
  obtain ⟨elided, hpass, hreads⟩ := h.elided
  obtain ⟨st, hspec, rfl⟩ := validateContentAddressed_spec hpass
  rcases admitReads_ok hreads with ⟨_, heq, _⟩ | ⟨hescape, heq, _, hidentity⟩
  · by_cases hany : ∃ step ∈ o.commit.operations.zipIdx, (writeOn o doc step).isSome = true ∧
        step.2 ∈ st.elidedOpIndexes
    · obtain ⟨step, hstep, hwrite, hmem⟩ := hany
      obtain ⟨data, hdata⟩ := Option.isSome_iff_exists.1 hwrite
      obtain ⟨x, hx, hindex, id, hid, hcid, hidmem⟩ := (hspec.elided _).1 hmem
      obtain rfl := step_eq_of_index hx hstep hindex
      obtain rfl : id = doc.id := by
        rw [(id?_of_writtenDoc (writeOn_some hdata).1).1] at hid
        exact (Option.some.inj hid).symm
      rw [h.writtenDoc_cid hspec hstep (writeOn_some hdata).1 hcid]
      exact .inr (elidedOn_cid hspec (fun i hi => heq ▸ hi) hcid hidmem)
    · refine .inl fun step hstep hwrite => ?_
      rw [heq]
      cases hcontains : st.elidedOpIndexes.contains step.2 with
      | false => rfl
      | true => exact absurd ⟨step, hstep, hwrite, List.contains_iff_mem.1 hcontains⟩ hany
  · refine .inr (h.elidedOn_identity hspec hidentity (fun step hstep => ?_) (hverdicts hescape) doc)
    rw [heq, List.contains_iff_mem, List.mem_range]
    obtain ⟨hlt, _⟩ := List.getElem?_eq_some_iff.1 (List.mem_zipIdx_iff_getElem?.1 hstep)
    exact hlt

end Commit
