import CommonFabric.Conflicts
import CommonFabric.PatchFrame

/-!
# What stored rows leave alone

Rows of patches that do not touch a path leave what the document holds there, as long as
none of them shifts the elements of an array.
-/

/-- The value at a path of a document; an absent one is valued as the empty document,
which is what a patch is applied to. -/
def documentValueAt (document : Option EntityDocument) (path : ValuePath) : Option FabricValue :=
  valueAt (document.getD emptyEntityDocument).toValue path

/-- No operation of the list shifts elements of an array, each looked at in the document
it is applied to. -/
def keepsElements : FabricValue → List PatchOp → Bool
  | _, [] => true
  | v, op :: rest => !op.shiftsElements v && match applyOp v op with
    | .ok v' => keepsElements v' rest
    | .error _ => true

/-- The change one stored row makes to a document, or to the failure of the row before. -/
def applyRow (state : Except EngineError (Option EntityDocument)) (row : RevisionRow) :
    Except EngineError (Option EntityDocument) :=
  ReplayLog.step applyRevision state row.data.entry

/-- The same of stored rows, from the document they are applied to. -/
def rowsKeepElements : Except EngineError (Option EntityDocument) → List RevisionRow → Bool
  | _, [] => true
  | state, row :: rest =>
    (match state with
      | .ok d => keepsElements (d.getD emptyEntityDocument).toValue (storedPatchList row)
      | .error _ => true) && rowsKeepElements (applyRow state row) rest

variable {row : RevisionRow} {rows : List RevisionRow} {ops : List PatchOp}

theorem rowsKeepElements_cons {d : Option EntityDocument}
    (h : rowsKeepElements (.ok d) (row :: rows) = true) :
    keepsElements (d.getD emptyEntityDocument).toValue (storedPatchList row) = true ∧
      rowsKeepElements (applyRow (.ok d) row) rows = true := by
  simpa only [rowsKeepElements, Bool.and_eq_true] using h

theorem replay_rows_cons (state : Except EngineError (Option EntityDocument)) (row : RevisionRow)
    (rows : List RevisionRow) :
    ReplayLog.replay applyRevision state ((row :: rows).map (·.data.entry)) =
      ReplayLog.replay applyRevision (applyRow state row) (rows.map (·.data.entry)) := rfl

theorem opClear_disjoint {op : PatchOp} {path : ValuePath} (h : OpClear op path false) :
    ∃ leaves, touchedLeafPathsForPatch op = .ok leaves ∧
      ∀ q ∈ leaves, pathsOverlap q path = false := by
  obtain ⟨leaves, hleaves, htouch⟩ := h
  refine ⟨leaves, hleaves, fun q hq => ?_⟩
  have hall := List.any_eq_false.1 (show List.any _ _ = false from htouch) q hq
  simpa using hall

/-- Applied where it shifts no element, the operation leaves the value at the path. -/
def PatchOp.LeavesAt (path : ValuePath) (x : Option FabricValue) (op : PatchOp) : Prop :=
  ∀ {v v' : FabricValue}, applyOp v op = .ok v' → op.shiftsElements v = false →
    valueAt v path = x → valueAt v' path = x

theorem OpClear.leavesAt {op : PatchOp} {path : ValuePath} (h : OpClear op path false)
    (x : Option FabricValue) : op.LeavesAt path x := by
  intro v v' hop hkeep hx
  obtain ⟨leaves, hleaves, hdisjoint⟩ := opClear_disjoint h
  rw [applyOp_frame hop hleaves hdisjoint hkeep, hx]

variable {path : ValuePath} {x : Option FabricValue}

theorem applyPatch_leavesAt : ∀ {v v' : FabricValue}, applyPatch v ops = .ok v' →
    (∀ op ∈ ops, op.LeavesAt path x) → keepsElements v ops = true → valueAt v path = x →
    valueAt v' path = x := by
  induction ops with
  | nil => intro v v' h _ _ hx; cases h; exact hx
  | cons op ops ih =>
    intro v v' h hleaves hkeep hx
    obtain ⟨v₁, hop, h⟩ := List.foldlM_cons_ok.1 h
    simp only [keepsElements, hop, Bool.and_eq_true, Bool.not_eq_true'] at hkeep
    exact ih h (fun op' hop' => hleaves op' (List.mem_cons_of_mem _ hop')) hkeep.2
      (hleaves op List.mem_cons_self hop hkeep.1 hx)

theorem applyRevision_ok {d d' : Option EntityDocument}
    (h : applyRevision d ops = .ok d') : ∃ patched : EntityDocument, d' = some patched ∧
      applyPatch (d.getD emptyEntityDocument).toValue ops = .ok patched.toValue := by
  unfold applyRevision at h
  cases hpatch : liftPatch (applyPatchToDocument d ops) with
  | error e => rw [hpatch] at h; cases h
  | ok patched =>
    rw [hpatch] at h
    cases h
    rw [liftPatch_ok_iff] at hpatch
    obtain ⟨v, hv, hpatch⟩ := Except.bind_ok_iff.1 hpatch
    have hvalue : v = patched.toValue := by
      cases v with
      | record fields => simp only [entityDocument?] at hpatch; cases hpatch; rfl
      | _ => simp [entityDocument?] at hpatch
    exact ⟨patched, rfl, hvalue ▸ hv⟩

theorem applyRevision_leavesAt {d d' : Option EntityDocument} (h : applyRevision d ops = .ok d')
    (hleaves : ∀ op ∈ ops, op.LeavesAt path x)
    (hkeep : keepsElements (d.getD emptyEntityDocument).toValue ops = true)
    (hx : documentValueAt d path = x) : documentValueAt d' path = x := by
  obtain ⟨patched, rfl, hv⟩ := applyRevision_ok h
  exact applyPatch_leavesAt hv hleaves hkeep hx

theorem applyRow_patch (hpatch : row.data.isPatch = true) (d : Option EntityDocument) :
    applyRow (.ok d) row = applyRevision d (storedPatchList row) := by
  cases hd : row.data with
  | patch ps => simp only [applyRow, hd, RevisionData.entry, storedPatchList]; rfl
  | set _ | delete => rw [hd] at hpatch; cases hpatch

theorem applyRow_patch_error (hpatch : row.data.isPatch = true)
    (err : EngineError) : applyRow (.error err) row = .error err := by
  cases hd : row.data with
  | patch ps => simp only [applyRow, hd, RevisionData.entry]; rfl
  | set _ | delete => rw [hd] at hpatch; cases hpatch

theorem applyRow_base (hpatch : row.data.isPatch = false)
    (state : Except EngineError (Option EntityDocument)) :
    ∃ d, applyRow state row = .ok d ∧ ∀ state', applyRow state' row = .ok d := by
  cases hd : row.data with
  | patch ps => rw [hd] at hpatch; cases hpatch
  | set v => exact ⟨some v, by simp only [applyRow, hd]; rfl, fun _ => by simp only [applyRow, hd]; rfl⟩
  | delete => exact ⟨none, by simp only [applyRow, hd]; rfl, fun _ => by simp only [applyRow, hd]; rfl⟩

/-- Where both replays have a document, the documents hold the same at the path. -/
def AgreeAt (path : ValuePath) (state state' : Except EngineError (Option EntityDocument)) : Prop :=
  ∀ d d', state = .ok d → state' = .ok d' → documentValueAt d path = documentValueAt d' path

variable {state state' : Except EngineError (Option EntityDocument)}

/-- A patch row that does not touch the path may be left out of one of two replays. -/
theorem AgreeAt.skip (h : AgreeAt path state state')
    (hpatch : row.data.isPatch = true) (hclear : ∀ op ∈ storedPatchList row, OpClear op path false)
    (hkeep : rowsKeepElements state' (row :: rows) = true) :
    AgreeAt path state (applyRow state' row) := by
  intro d d' hd hd'
  cases state' with
  | error err => rw [applyRow_patch_error hpatch] at hd'; cases hd'
  | ok d₀ =>
    rw [applyRow_patch hpatch] at hd'
    rw [applyRevision_leavesAt hd' (fun op hop => (hclear op hop).leavesAt _)
      (rowsKeepElements_cons hkeep).1 rfl]
    exact h d d₀ hd rfl

/-- Where there is a document, it holds the value at the path. -/
def ReadsAs (path : ValuePath) (x : Option FabricValue)
    (state : Except EngineError (Option EntityDocument)) : Prop :=
  ∀ d, state = .ok d → documentValueAt d path = x

/-- Patch rows whose operations leave the value at a path leave what is read there. -/
theorem replay_leavesAt (hleaves : ∀ row ∈ rows, row.data.isPatch = true ∧
      ∀ op ∈ storedPatchList row, op.LeavesAt path x) :
    ∀ state, ReadsAs path x state → rowsKeepElements state rows = true →
      ReadsAs path x (ReplayLog.replay applyRevision state (rows.map (·.data.entry))) := by
  induction rows with
  | nil => intro state h _; exact h
  | cons row rows ih =>
    intro state h hkeep
    obtain ⟨hpatch, hops⟩ := hleaves row List.mem_cons_self
    rw [replay_rows_cons]
    refine ih (fun row' h' => hleaves row' (List.mem_cons_of_mem _ h')) _ ?_ ?_
    · intro d' hd'
      cases state with
      | error err => rw [applyRow_patch_error hpatch] at hd'; cases hd'
      | ok d =>
        rw [applyRow_patch hpatch] at hd'
        exact applyRevision_leavesAt hd' hops (rowsKeepElements_cons hkeep).1 (h d rfl)
    · simp only [rowsKeepElements, Bool.and_eq_true] at hkeep
      exact hkeep.2
