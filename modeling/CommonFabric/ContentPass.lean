import CommonFabric.ContentAddressed

/-!
# What the content-addressed pass admits

The scans of a commit's content only add references. A `cid:` document is met in sets
alone, each at space scope, of content that hashes to its id and that agrees with what
is stored and with the commit's other sets of it; the pass leaves out those of documents
stored already.
-/

namespace ContentAddressed

variable {e : Engine} {s : Store} {ctx : PassContext} {keys : List DocKey}
  {st st' st'' : PassState} {id : EntityId} {opIndex : Nat}

/-- The references grew and nothing was met of the `cid:` documents. -/
structure PassState.Grew (st st' : PassState) : Prop where
  schemas : st.requiredSchemaRefs ⊆ st'.requiredSchemaRefs
  labels : st.requiredLabelDocs ⊆ st'.requiredLabelDocs
  cidSets : st'.cidSetsInCommit = st.cidSetsInCommit
  elidable : st'.elidableCidIds = st.elidableCidIds
  elided : st'.elidedOpIndexes = st.elidedOpIndexes

namespace PassState.Grew

theorem refl (st : PassState) : Grew st st := ⟨fun _ h => h, fun _ h => h, rfl, rfl, rfl⟩

theorem trans (h : Grew st st') (h' : Grew st' st'') : Grew st st'' where
  schemas := List.Subset.trans h.schemas h'.schemas
  labels := List.Subset.trans h.labels h'.labels
  cidSets := h'.cidSets.trans h.cidSets
  elidable := h'.elidable.trans h.elidable
  elided := h'.elided.trans h.elided

end PassState.Grew

open PassState (Grew)

theorem mem_addAll {refs hashes : List JsString} {hash : JsString} :
    hash ∈ addAll refs hashes ↔ hash ∈ refs ∨ hash ∈ hashes := by
  unfold addAll
  induction hashes generalizing refs with
  | nil => simp
  | cons h hashes ih =>
    rw [List.foldl_cons, ih]
    by_cases hc : refs.contains h = true
    · have hmem : h ∈ refs := by simpa using hc
      rw [if_pos hc, List.mem_cons]
      constructor
      · rintro (hr | hr)
        · exact .inl hr
        · exact .inr (.inr hr)
      · rintro (hr | rfl | hr)
        · exact .inl hr
        · exact .inl hmem
        · exact .inr hr
    · rw [if_neg hc, List.mem_append, List.mem_singleton, List.mem_cons, or_assoc]

theorem requireSchemas_grew (st : PassState) (hashes : List JsString) :
    Grew st (st.requireSchemas hashes) :=
  ⟨fun _ h => mem_addAll.2 (.inl h), fun _ h => h, rfl, rfl, rfl⟩

theorem requireLabels_grew (st : PassState) (hashes : List JsString) :
    Grew st (st.requireLabels hashes) :=
  ⟨fun _ h => h, fun _ h => mem_addAll.2 (.inl h), rfl, rfl, rfl⟩

theorem stage_grew (st : PassState) (key : DocKey) (document : Option EntityDocument) :
    Grew st (st.stage key document) := ⟨fun _ h => h, fun _ h => h, rfl, rfl, rfl⟩

theorem stageIfPatched_grew (keys : List DocKey) (st : PassState) (key : DocKey)
    (document : Option EntityDocument) : Grew st (stageIfPatched keys st key document) := by
  unfold stageIfPatched
  split
  · exact stage_grew st key document
  · exact .refl st

theorem collectLinkSchemaRefs_grew (st : PassState) (content : FabricValue) :
    Grew st (collectLinkSchemaRefs e st content) := requireSchemas_grew st _

theorem collectLinkSchemaRefs_foldl_grew (contents : List FabricValue) (st : PassState) :
    Grew st (contents.foldl (collectLinkSchemaRefs e) st) := by
  induction contents generalizing st with
  | nil => exact .refl st
  | cons content contents ih => exact (collectLinkSchemaRefs_grew st content).trans (ih _)

theorem collectCfcEnvelopeRef_grew {metadata : FabricValue}
    (h : collectCfcEnvelopeRef st metadata = .ok st') : Grew st st' := by
  obtain ⟨⟨schemas, labels⟩, _, h⟩ := Except.bind_ok_iff.1 h
  cases h
  exact (requireSchemas_grew st schemas).trans (requireLabels_grew _ labels)

theorem collectSchemaMetaRefs_grew {document : EntityDocument}
    (h : collectSchemaMetaRefs e st id document = .ok st') : Grew st st' := by
  unfold collectSchemaMetaRefs at h
  split at h
  · cases h; exact requireSchemas_grew st _
  · cases h

theorem stageMetadataPatch_grew {key : DocKey} {base : Option EntityDocument}
    {patches : List PatchOp} (h : stageMetadataPatch e st key base patches = .ok st') :
    Grew st st' := by
  unfold stageMetadataPatch at h
  split at h
  · cases h
  · cases h; exact .refl st
  · dsimp only at h
    split at h
    · obtain ⟨_, h⟩ := Except.check_ok_iff.1 h
      obtain ⟨st₁, hcfc, h⟩ := Except.bind_ok_iff.1 h
      exact ((stage_grew st key _).trans (collectCfcEnvelopeRef_grew hcfc)).trans
        (collectSchemaMetaRefs_grew h)
    · cases h; exact stage_grew st key _

variable {scope : Option CellScope} {value : EntityDocument} {operation : Operation}

theorem scanPatch_grew {patches : List PatchOp}
    (h : scanPatch e s ctx keys st opIndex id scope patches = .ok st') : Grew st st' := by
  have hlinks := collectLinkSchemaRefs_foldl_grew (e := e) (patches.flatMap patchContents) st
  unfold scanPatch at h
  dsimp only at h
  split at h
  · cases h; exact hlinks
  · obtain ⟨key, _, h⟩ := Except.bind_ok_iff.1 h
    split at h
    · obtain ⟨base, _, h⟩ := Except.bind_ok_iff.1 h
      exact hlinks.trans (stageMetadataPatch_grew h)
    · cases h; exact hlinks

theorem scanSet_grew
    (h : scanSet e s ctx keys st opIndex id scope value = .ok st') : Grew st st' := by
  obtain ⟨key, _, h⟩ := Except.bind_ok_iff.1 h
  obtain ⟨_, h⟩ := Except.check_ok_iff.1 h
  obtain ⟨st₁, hcfc, h⟩ := Except.bind_ok_iff.1 h
  obtain ⟨st₂, hmeta, h⟩ := Except.bind_ok_iff.1 h
  cases h
  exact ((collectLinkSchemaRefs_grew st _).trans (collectCfcEnvelopeRef_grew hcfc)).trans
    ((collectSchemaMetaRefs_grew hmeta).trans (stageIfPatched_grew keys st₂ key _))

theorem scanOrdinary_grew
    (h : scanOrdinary e s ctx keys st opIndex operation = .ok st') : Grew st st' := by
  cases operation with
  | set id scope value => exact scanSet_grew h
  | patch id scope patches =>
    obtain ⟨_, _, h⟩ := Except.bind_ok_iff.1 h
    cases h; exact .refl st
  | delete id scope =>
    obtain ⟨_, _, h⟩ := Except.bind_ok_iff.1 h
    cases h; exact stageIfPatched_grew keys st _ none
  | applyOp | releaseOpField | sqlite => cases h; exact .refl st

theorem scanPatches_grew
    (h : scanPatches e s ctx keys st opIndex operation = .ok st') : Grew st st' := by
  cases operation with
  | patch id scope patches => exact scanPatch_grew h
  | _ => cases h; exact .refl st

theorem scanInstalled_grew (h : scanInstalled e s ctx st id value = .ok st') : Grew st st' := by
  unfold scanInstalled at h
  split at h
  · cases h; exact .refl st
  · obtain ⟨_, h⟩ := Except.check_ok_iff.1 h
    refine Grew.trans ?_ (collectSchemaMetaRefs_grew h)
    split
    · exact requireSchemas_grew st _
    · exact collectLinkSchemaRefs_grew st _

/-- A set of a `cid:` document as the pass admits it: the commit's first, or one more of
the same value. -/
inductive CidSetAdmitted (e : Engine) (s : Store) (ctx : PassContext) (st : PassState)
    (opIndex : Nat) (id : EntityId) (scope : Option CellScope) (value : EntityDocument) :
    PassState → Prop
  | stored {st' : PassState} (hnone : st.cidSet id = none)
      (hread : s.read noCache ⟨id, scope, ctx.session, ctx.branch, none, none⟩ = .ok (some value))
      (hhash : installsVerifiedContent e id value = true)
      (hsets : st'.cidSetsInCommit = st.cidSetsInCommit ++ [(id, value)])
      (helidable : st'.elidableCidIds = st.elidableCidIds ++ [id])
      (helided : st'.elidedOpIndexes = st.elidedOpIndexes ++ [opIndex]) :
      CidSetAdmitted e s ctx st opIndex id scope value st'
  | fresh {st' : PassState} (hnone : st.cidSet id = none)
      (hread : s.read noCache ⟨id, scope, ctx.session, ctx.branch, none, none⟩ = .ok none)
      (hhash : installsVerifiedContent e id value = true)
      (hsets : st'.cidSetsInCommit = st.cidSetsInCommit ++ [(id, value)])
      (helidable : st'.elidableCidIds = st.elidableCidIds)
      (helided : st'.elidedOpIndexes = st.elidedOpIndexes) :
      CidSetAdmitted e s ctx st opIndex id scope value st'
  | again {st' : PassState} (hsome : st.cidSet id = some value)
      (hsets : st'.cidSetsInCommit = st.cidSetsInCommit)
      (helidable : st'.elidableCidIds = st.elidableCidIds)
      (helided : st'.elidedOpIndexes = if st.elidableCidIds.contains id then
        st.elidedOpIndexes ++ [opIndex] else st.elidedOpIndexes) :
      CidSetAdmitted e s ctx st opIndex id scope value st'

theorem scanCid_ok (h : scanCid e s ctx st opIndex id operation = .ok st') :
    ∃ scope value st₁, operation = .set (operation.id?.getD "") scope value ∧
      normalizeScope scope = DEFAULT_SCOPE ∧ scanInstalled e s ctx st id value = .ok st₁ ∧
      st₁.requiredSchemaRefs = st'.requiredSchemaRefs ∧
      st₁.requiredLabelDocs = st'.requiredLabelDocs ∧
      CidSetAdmitted e s ctx st opIndex id scope value st' := by
  cases operation with
  | set id' scope value =>
    obtain ⟨hscope, h⟩ := Except.check_ok_iff.1 h
    obtain ⟨st₁, hinstalled, h⟩ := Except.bind_ok_iff.1 h
    have hgrew := scanInstalled_grew hinstalled
    have hset : st₁.cidSet id = st.cidSet id := by
      rw [PassState.cidSet, PassState.cidSet, hgrew.cidSets]
    refine ⟨scope, value, st₁, rfl, by simpa using hscope, hinstalled, ?_⟩
    split at h
    · rename_i earlier hearlier
      obtain ⟨heq, hok⟩ := Except.check_ok_iff.1 h
      obtain rfl : earlier = value := by simpa using heq
      rw [hset] at hearlier
      cases hok
      refine ⟨by split <;> rfl, by split <;> rfl, .again hearlier ?_ ?_ ?_⟩
      · rw [← hgrew.cidSets]; split <;> rfl
      · rw [← hgrew.elidable]; split <;> rfl
      · rw [← hgrew.elidable, ← hgrew.elided]; split <;> rfl
    · rename_i hnone
      rw [hset] at hnone
      obtain ⟨stored, hread, h⟩ := Except.bind_ok_iff.1 h
      obtain ⟨hsame, h⟩ := Except.check_ok_iff.1 h
      obtain ⟨hhash, h⟩ := Except.check_ok_iff.1 h
      simp only [require_ok_iff] at hsame hhash
      cases h
      cases stored with
      | none =>
        exact ⟨rfl, rfl, .fresh hnone hread hhash (by rw [← hgrew.cidSets]; rfl)
          (by rw [← hgrew.elidable]; rfl) (by rw [← hgrew.elided]; rfl)⟩
      | some stored =>
        obtain rfl : stored = value := by simpa using hsame
        exact ⟨rfl, rfl, .stored hnone hread hhash (by rw [← hgrew.cidSets]; rfl)
          (by rw [← hgrew.elidable]; rfl) (by rw [← hgrew.elided]; rfl)⟩
  | _ => cases h

/-- One operation passed: a document that is not content-addressed only adds references,
and a `cid:` document is one more admitted set. -/
theorem scanOperation_ok (h : scanOperation e s ctx keys st (operation, opIndex) = .ok st') :
    Grew st st' ∧ (∀ id, operation.id? = some id → isContentAddressed id = false) ∨
    ∃ id scope value st₁, operation = .set id scope value ∧ isContentAddressed id = true ∧
      normalizeScope scope = DEFAULT_SCOPE ∧ scanInstalled e s ctx st id value = .ok st₁ ∧
      st₁.requiredSchemaRefs = st'.requiredSchemaRefs ∧
      st₁.requiredLabelDocs = st'.requiredLabelDocs ∧
      CidSetAdmitted e s ctx st opIndex id scope value st' := by
  simp only [scanOperation] at h
  split at h
  · rename_i hid
    cases h
    exact .inl ⟨.refl st, by simp [hid]⟩
  · rename_i id hid
    obtain ⟨st₁, hpatches, h⟩ := Except.bind_ok_iff.1 h
    split at h
    · rename_i hcid
      obtain ⟨scope, value, st₂, hop, hrest⟩ := scanCid_ok h
      rw [hid] at hop
      have hsame : st₁ = st := by rw [hop] at hpatches; cases hpatches; rfl
      subst hsame
      exact .inr ⟨id, scope, value, st₂, hop, hcid, hrest⟩
    · rename_i hcid
      refine .inl ⟨(scanPatches_grew hpatches).trans (scanOrdinary_grew h), fun id' hid' => ?_⟩
      rw [hid] at hid'
      cases hid'
      simpa using hcid

/-- An admitted set adds its index to those left out, or nothing. -/
theorem CidSetAdmitted.elided (h : CidSetAdmitted e s ctx st opIndex id scope value st') :
    st'.elidedOpIndexes = st.elidedOpIndexes ∨
      st'.elidedOpIndexes = st.elidedOpIndexes ++ [opIndex] := by
  cases h with
  | stored _ _ _ _ _ h => exact .inr h
  | fresh _ _ _ _ _ h => exact .inl h
  | again _ _ _ h =>
    rw [h]
    split
    · exact .inr rfl
    · exact .inl rfl

/-- The indexes of some of the steps, each a set. -/
def IndexesOfSets (steps : List (Operation × Nat)) (indexes : List Nat) : Prop :=
  ∃ sets, List.Sublist sets steps ∧ sets.map (·.2) = indexes ∧
    ∀ x ∈ sets, ∃ id scope value, x.1 = .set id scope value

theorem scanOperations_elided {steps : List (Operation × Nat)}
    (h : steps.foldlM (scanOperation e s ctx keys) st = .ok st') :
    ∃ indexes, st'.elidedOpIndexes = st.elidedOpIndexes ++ indexes ∧
      IndexesOfSets steps indexes := by
  induction steps generalizing st with
  | nil => cases h; exact ⟨[], by simp, [], List.Sublist.slnil, rfl, by simp⟩
  | cons step steps ih =>
    obtain ⟨operation, opIndex⟩ := step
    obtain ⟨st₁, hstep, h⟩ := List.foldlM_cons_ok.1 h
    obtain ⟨indexes, helided, sets, hsub, hmap, hsets⟩ := ih h
    have hkeep : st₁.elidedOpIndexes = st.elidedOpIndexes →
        ∃ indexes, st'.elidedOpIndexes = st.elidedOpIndexes ++ indexes ∧
          IndexesOfSets ((operation, opIndex) :: steps) indexes := fun hsame =>
      ⟨indexes, by rw [helided, hsame], sets, hsub.cons _, hmap, hsets⟩
    rcases scanOperation_ok hstep with ⟨hgrew, _⟩ | ⟨id, scope, value, _, hop, _, _, _, _, _, hset⟩
    · exact hkeep hgrew.elided
    · rcases hset.elided with hsame | hadd
      · exact hkeep hsame
      · refine ⟨opIndex :: indexes, by rw [helided, hadd, List.append_assoc]; rfl,
          (operation, opIndex) :: sets, hsub.cons_cons _, by rw [List.map_cons, hmap], ?_⟩
        intro x hx
        rcases List.mem_cons.1 hx with rfl | hx
        · exact ⟨id, scope, value, hop⟩
        · exact hsets x hx

/-- The pass leaves out sets alone. -/
theorem validateContentAddressed_elided {operations : List Operation} {elided : List Nat}
    (h : validateContentAddressed e s ctx operations = .ok elided) :
    IndexesOfSets operations.zipIdx elided := by
  obtain ⟨keys, _, h⟩ := Except.bind_ok_iff.1 h
  obtain ⟨st, hsteps, h⟩ := Except.bind_ok_iff.1 h
  obtain ⟨_, h⟩ := Except.check_ok_iff.1 h
  obtain ⟨_, h⟩ := Except.check_ok_iff.1 h
  cases h
  obtain ⟨indexes, helided, hsets⟩ := scanOperations_elided hsteps
  rw [helided]
  exact hsets

end ContentAddressed
