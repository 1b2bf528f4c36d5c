import CommonFabric.PatchAgree
import CommonFabric.ReadCoherence

/-!
# Coherence of pending reads

A pending read with a basis saw the document at its basis with the session's own layers
on it. The store holds the same layers with other sessions' patches between them. The two
agree at the read's path: a patch of another session leaves the path alone in the store,
and a layer's operation makes the same of the path in both.
-/

/-- The operation leaves at the path what it makes of the value there alone. -/
def PatchOp.staysAt (path : ValuePath) (op : PatchOp) : Bool :=
  !op.isMove && !op.editsListAbove path

/-- A layer's operations all do. -/
def layerStaysAt (path : ValuePath) (row : RevisionRow) : Bool :=
  (storedPatchList row).all (·.staysAt path)

theorem applyPatch_agree {ops : List PatchOp} {path : ValuePath} :
    ∀ {v w v' w' : FabricValue}, applyPatch v ops = .ok v' → applyPatch w ops = .ok w' →
      (∀ op ∈ ops, op.staysAt path = true) → keepsElements v ops = true →
      keepsElements w ops = true → valueAt v path = valueAt w path →
      valueAt v' path = valueAt w' path := by
  induction ops with
  | nil => intro v w v' w' hv hw _ _ _ h; cases hv; cases hw; exact h
  | cons op ops ih =>
    intro v w v' w' hv hw hstays hkv hkw h
    obtain ⟨v₁, hv₁, hv⟩ := List.foldlM_cons_ok.1 hv
    obtain ⟨w₁, hw₁, hw⟩ := List.foldlM_cons_ok.1 hw
    simp only [keepsElements, hv₁, Bool.and_eq_true, Bool.not_eq_true'] at hkv
    simp only [keepsElements, hw₁, Bool.and_eq_true, Bool.not_eq_true'] at hkw
    have hop := hstays op List.mem_cons_self
    simp only [PatchOp.staysAt, Bool.and_eq_true, Bool.not_eq_true'] at hop
    exact ih hv hw (fun op' h' => hstays op' (List.mem_cons_of_mem _ h')) hkv.2 hkw.2
      (applyOp_agree hv₁ hw₁ hop.1 hop.2 hkv.1 hkw.1 h)

variable {path : ValuePath} {state state' : Except EngineError (Option EntityDocument)}

/-- The same row in both replays keeps them agreeing. -/
theorem AgreeAt.same {row : RevisionRow} {rows rows' : List RevisionRow}
    (h : AgreeAt path state state') (hstays : layerStaysAt path row = true)
    (hkeep : rowsKeepElements state (row :: rows) = true)
    (hkeep' : rowsKeepElements state' (row :: rows') = true) :
    AgreeAt path (applyRow state row) (applyRow state' row) := by
  intro d d' hd hd'
  cases hpatch : row.data.isPatch with
  | false =>
    obtain ⟨base, hbase, hall⟩ := applyRow_base hpatch state
    rw [hbase] at hd
    rw [hall state'] at hd'
    cases hd; cases hd'; rfl
  | true =>
    cases state with
    | error err => rw [applyRow_patch_error hpatch] at hd; cases hd
    | ok d₀ =>
      cases state' with
      | error err => rw [applyRow_patch_error hpatch] at hd'; cases hd'
      | ok d₀' =>
        rw [applyRow_patch hpatch] at hd hd'
        obtain ⟨v, rfl, hv⟩ := applyRevision_ok hd
        obtain ⟨w, rfl, hw⟩ := applyRevision_ok hd'
        exact applyPatch_agree hv hw (List.all_eq_true.1 hstays) (rowsKeepElements_cons hkeep).1
          (rowsKeepElements_cons hkeep').1 (h d₀ d₀' rfl rfl)

/-- The layers alone, and the layers with rows between them that do not touch the path. -/
theorem replay_agree {own : RevisionRow → Bool} {rows : List RevisionRow}
    (hother : ∀ row ∈ rows, own row = false → row.data.isPatch = true ∧
      ∀ op ∈ storedPatchList row, OpClear op path false)
    (hown : ∀ row ∈ rows, own row = true → layerStaysAt path row = true) :
    ∀ state state', AgreeAt path state state' →
      rowsKeepElements state (rows.filter own) = true → rowsKeepElements state' rows = true →
      AgreeAt path (ReplayLog.replay applyRevision state ((rows.filter own).map (·.data.entry)))
        (ReplayLog.replay applyRevision state' (rows.map (·.data.entry))) := by
  induction rows with
  | nil => intro state state' h _ _; exact h
  | cons row rows ih =>
    intro state state' h hkeep hkeep'
    replace ih := ih (fun r hr => hother r (List.mem_cons_of_mem _ hr))
      (fun r hr => hown r (List.mem_cons_of_mem _ hr))
    have hrest' : rowsKeepElements (applyRow state' row) rows = true := by
      simp only [rowsKeepElements, Bool.and_eq_true] at hkeep'
      exact hkeep'.2
    rw [replay_rows_cons]
    cases hrow : own row with
    | false =>
      obtain ⟨hpatch, hclear⟩ := hother row List.mem_cons_self hrow
      rw [List.filter_cons_of_neg (by simp [hrow])] at hkeep ⊢
      exact ih _ _ (h.skip hpatch hclear hkeep') hkeep hrest'
    | true =>
      rw [List.filter_cons_of_pos hrow] at hkeep ⊢
      rw [replay_rows_cons]
      have hrest : rowsKeepElements (applyRow state row) (rows.filter own) = true := by
        simp only [rowsKeepElements, Bool.and_eq_true] at hkeep
        exact hkeep.2
      exact ih _ _ (h.same (hown row List.mem_cons_self hrow) hkeep hkeep') hrest hrest'

namespace Store

variable {s : Store} {doc : DocInstance}

theorem selectCommitRevisions_eq (hs : s.RowsSound) (seq : Nat) :
    s.selectCommitRevisions seq = s.revisions.filter (·.commitSeq = seq) := by
  refine List.Pairwise.insertionSort_eq ((hs.ordered.filter _).imp_of_mem ?_)
  intro a b ha hb hab
  have hseq : ∀ r ∈ s.revisions.filter (·.commitSeq = seq), r.seq = seq := by
    intro r hr
    obtain ⟨hr, hc⟩ := List.mem_filter.1 hr
    rw [← (hs.rowCommit r hr).1]
    simpa using hc
  rcases RevisionRow.position_le_iff.1 hab with hlt | ⟨_, hle⟩
  · rw [hseq a ha, hseq b hb] at hlt; omega
  · exact hle

/-- The rows of commits, one commit after another. -/
def layerRows (s : Store) (doc : DocInstance) (layers : List CommitRow) : List RevisionRow :=
  layers.flatMap fun c => (s.selectCommitRevisions c.seq).filter (·.doc = doc)

/-- Every document write of the commit left a revision at its index. -/
def NoneElided (s : Store) (c : CommitRow) : Prop :=
  ∀ x ∈ c.original.operations.zipIdx, x.1.write?.isSome = true →
    x.2 ∈ (s.selectCommitRevisions c.seq).map (·.opIndex)

/-- The read names the commits, which its session had accepted in that order after the
read's basis, and of which none was elided. -/
structure NamesLayers (s : Store) (sessionKey : JsString) (read : PendingRead) (basisSeq : Nat)
    (layers : List CommitRow) : Prop where
  named : read.localSeq.map (s.selectExistingCommit sessionKey) = layers.map some
  after : ∀ c ∈ layers, basisSeq < c.seq
  ordered : layers.Pairwise (·.seq < ·.seq)
  written : ∀ c ∈ layers, s.NoneElided c

variable {sessionKey : JsString} {read : PendingRead} {basisSeq : Nat} {layers : List CommitRow}

theorem NamesLayers.mem (h : s.NamesLayers sessionKey read basisSeq layers) {c : CommitRow}
    (hc : c ∈ layers) : c ∈ s.commits ∧ c.sessionId = sessionKey ∧ c.localSeq ∈ read.localSeq := by
  have hmem : some c ∈ read.localSeq.map (s.selectExistingCommit sessionKey) := by
    rw [h.named]; exact List.mem_map_of_mem hc
  obtain ⟨localSeq, hl, hsel⟩ := List.mem_map.1 hmem
  obtain ⟨hcommit, hkey, rfl⟩ := selectExistingCommit_mem hsel
  exact ⟨hcommit, hkey, hl⟩

/-- A row of the instance is left out of the scan exactly when it is a named layer's. -/
theorem NamesLayers.excluded_iff (hs : s.Sound) (h : s.NamesLayers sessionKey read basisSeq layers)
    {row : RevisionRow} (hrow : row ∈ s.revisions) :
    s.notExcluded (Commit.ownLayers sessionKey read) row = false ↔
      ∃ c ∈ layers, row.commitSeq = c.seq := by
  obtain ⟨hseq, c, hc, hcseq, _⟩ := hs.rowCommit row hrow
  have hsel : s.selectCommit row.commitSeq = some c := by
    rw [hseq, ← hcseq]; exact selectCommit_of_mem hs.commitsAscending hc
  simp only [notExcluded, Commit.ownLayers, hsel, Bool.or_eq_false_iff, decide_eq_false_iff_not,
    not_not, Bool.not_eq_false', List.contains_iff_mem]
  constructor
  · rintro ⟨hkey, hnamed⟩
    have hmem : s.selectExistingCommit sessionKey c.localSeq ∈ layers.map some := by
      rw [← h.named]; exact List.mem_map_of_mem hnamed
    obtain ⟨d, hd, hsome⟩ := List.mem_map.1 hmem
    obtain ⟨hdmem, hdkey, hdlocal⟩ := selectExistingCommit_mem hsome.symm
    refine ⟨d, hd, ?_⟩
    rcases Query.eq_or_related_of_pairwise hs.sessions hc hdmem with rfl | hne | hne
    · rw [hseq, hcseq]
    · exact absurd ⟨by rw [hkey, hdkey], hdlocal.symm⟩ hne
    · exact absurd ⟨by rw [hkey, hdkey], hdlocal⟩ hne
  · rintro ⟨d, hd, hds⟩
    obtain ⟨hdmem, hdkey, hdlocal⟩ := h.mem hd
    have : c = d := by
      rw [hds, selectCommit_of_mem hs.commitsAscending hdmem] at hsel
      exact (Option.some.inj hsel).symm
    rw [this]
    exact ⟨hdkey, hdlocal⟩

theorem mem_layerRows (hs : s.RowsSound) {row : RevisionRow} :
    row ∈ s.layerRows doc layers ↔ row ∈ s.rowsOf doc ∧ ∃ c ∈ layers, row.commitSeq = c.seq := by
  simp only [layerRows, List.mem_flatMap, selectCommitRevisions_eq hs, List.mem_filter,
    mem_rowsOf, decide_eq_true_eq]
  constructor
  · rintro ⟨c, hc, ⟨hrow, hseq⟩, hdoc⟩; exact ⟨⟨hrow, hdoc⟩, c, hc, hseq⟩
  · rintro ⟨⟨hrow, hdoc⟩, c, hc, hseq⟩; exact ⟨c, hc, ⟨hrow, hseq⟩, hdoc⟩

theorem layerRows_ascending (hs : s.RowsSound) (hlayers : layers.Pairwise (·.seq < ·.seq)) :
    (s.layerRows doc layers).Pairwise (·.position < ·.position) := by
  have hof : ∀ c : CommitRow, (s.selectCommitRevisions c.seq).filter (·.doc = doc) =
      (s.rowsOf doc).filter (·.commitSeq = c.seq) := by
    intro c
    rw [selectCommitRevisions_eq hs, rowsOf, List.filter_filter, List.filter_filter]
    exact List.filter_congr fun r _ => Bool.and_comm _ _
  refine List.pairwise_flatMap.2 ⟨fun c _ => ?_, hlayers.imp ?_⟩
  · rw [hof]
    exact (hs.ascending doc).filter _
  · intro c d hcd a ha b hb
    rw [hof] at ha hb
    obtain ⟨ha, hac⟩ := List.mem_filter.1 ha
    obtain ⟨hb, hbd⟩ := List.mem_filter.1 hb
    simp only [decide_eq_true_eq] at hac hbd
    refine RevisionRow.position_lt_iff.2 (.inl ?_)
    rw [← (hs.rowCommit a (mem_rowsOf.1 ha).1).1, ← (hs.rowCommit b (mem_rowsOf.1 hb).1).1, hac, hbd]
    exact hcd

/-- The named layers' rows are the rows the scan leaves out, in their order. -/
theorem NamesLayers.layerRows_eq (hs : s.Sound)
    (h : s.NamesLayers sessionKey read basisSeq layers) :
    s.layerRows doc layers = (s.rowsAfter doc basisSeq).filter
      fun r => !s.notExcluded (Commit.ownLayers sessionKey read) r := by
  refine List.Pairwise.eq_of_mem_iff (layerRows_ascending hs.toRowsSound h.ordered)
    (((hs.ascending doc).filter _).filter _) fun row => ?_
  rw [mem_layerRows hs.toRowsSound, rowsAfter, List.mem_filter, List.mem_filter]
  simp only [decide_eq_true_eq, Bool.not_eq_true']
  constructor
  · rintro ⟨hrow, c, hc, hseq⟩
    have hmem := (mem_rowsOf.1 hrow).1
    refine ⟨⟨hrow, ?_⟩, (h.excluded_iff hs hmem).2 ⟨c, hc, hseq⟩⟩
    rw [← (hs.rowCommit row hmem).1, hseq]
    exact h.after c hc
  · rintro ⟨⟨hrow, _⟩, hex⟩
    exact ⟨hrow, (h.excluded_iff hs (mem_rowsOf.1 hrow).1).1 hex⟩

end Store

namespace Identity

end Identity

namespace Store

variable {s : Store} {sessionKey : JsString} {read : PendingRead} {basisSeq : Nat}
  {layers : List CommitRow}

/-- A read that conflicts with nothing beside its layers holds at its path, with the layers
on its basis, what the document holds now. -/
theorem NamesLayers.coherent (hs : s.Sound) {doc : DocInstance}
    (h : s.NamesLayers sessionKey read basisSeq layers)
    (hfree : s.ConflictFree doc basisSeq read.path false (Commit.ownLayers sessionKey read))
    (hgoes : s.GoesOn doc basisSeq) {basis view now : Option EntityDocument}
    (hbasis : s.documentAt doc (some basisSeq) = .ok basis)
    (hview : ReplayLog.replay applyRevision (.ok basis)
      ((s.layerRows doc layers).map (·.data.entry)) = .ok view)
    (hnow : s.documentAt doc none = .ok now)
    (hstays : ∀ row ∈ s.layerRows doc layers, layerStaysAt read.path row = true)
    (hkeepLayers : rowsKeepElements (.ok basis) (s.layerRows doc layers) = true)
    (hkeep : rowsKeepElements (.ok basis) (s.rowsAfter doc basisSeq) = true) :
    documentValueAt view read.path = documentValueAt now read.path := by
  rw [documentAt_since hs hgoes hbasis] at hnow
  rw [h.layerRows_eq hs] at hview hstays hkeepLayers
  refine replay_agree (fun row hrow hother => ?_) (fun row hrow hown => ?_) (.ok basis) (.ok basis)
    ?_ hkeepLayers hkeep view now hview hnow
  · obtain ⟨hmem, hseq⟩ := List.mem_filter.1 hrow
    exact hfree row hmem (by simpa using hseq) (by simpa using hother)
  · exact hstays row (List.mem_filter.2 ⟨hrow, hown⟩)
  · rintro d d' hd hd'
    cases hd; cases hd'; rfl

end Store

namespace Commit

open Store

variable {opens : Engine → Prop} {e : Engine} {s s' : Store} {o : ApplyCommitOptions}
  {r : AppliedCommit}

/-- A document of one session, patched by another and then by the session itself. -/
def stackedPatches (document : EntityDocument) (foreign own : List PatchOp) :
    List ApplyCommitOptions :=
  foreignPatch document foreign ++ [.authored "s" (.ofOperations 2 [.patch "of:d" none own])]

def stackedStore (document : EntityDocument) (foreign own : List PatchOp) : Store :=
  storeAfter (bareEngine 0 0) (stackedPatches document foreign own)

instance (s : Store) (c : CommitRow) : Decidable (s.NoneElided c) :=
  inferInstanceAs (Decidable (∀ x ∈ _, _))

theorem namesLayers_iff {s : Store} {sessionKey : JsString} {read : PendingRead} {basisSeq : Nat}
    {layers : List CommitRow} : s.NamesLayers sessionKey read basisSeq layers ↔
      read.localSeq.map (s.selectExistingCommit sessionKey) = layers.map some ∧
        (∀ c ∈ layers, basisSeq < c.seq) ∧ layers.Pairwise (·.seq < ·.seq) ∧
        ∀ c ∈ layers, s.NoneElided c :=
  ⟨fun h => ⟨h.named, h.after, h.ordered, h.written⟩, fun ⟨h₁, h₂, h₃, h₄⟩ => ⟨h₁, h₂, h₃, h₄⟩⟩

instance (s : Store) (sessionKey : JsString) (read : PendingRead) (basisSeq : Nat)
    (layers : List CommitRow) : Decidable (s.NamesLayers sessionKey read basisSeq layers) :=
  decidable_of_iff _ namesLayers_iff.symm

/-- What another session does to an array and what the session itself then does, with the array
this leaves in the session's view and in the store. -/
structure ArrayEdits where
  base : Patch.Slots
  foreign : PatchOp
  own : PatchOp
  view : Patch.Slots
  stored : Patch.Slots

/-- A document of which `value.a` is the array. -/
def arrayDocument (slots : Patch.Slots) : EntityDocument := ⟨[("value", .record [("a", .array slots)])]⟩

def ArrayEdits.commits (edits : ArrayEdits) : List ApplyCommitOptions :=
  stackedPatches (arrayDocument edits.base) [edits.foreign] [edits.own]

def ArrayEdits.store (edits : ArrayEdits) : Store :=
  stackedStore (arrayDocument edits.base) [edits.foreign] [edits.own]

end Commit

section

variable {ops ops' : List PatchOp} {path : ValuePath} {v v' w' : FabricValue}

/-- The first patch makes of the value at the path what it makes of it by itself, and the second
leaves it alone. -/
def OneTouches (ops ops' : List PatchOp) (path : ValuePath) : Prop :=
  (∀ op ∈ ops, op.staysAt path = true) ∧ ∀ op ∈ ops', OpClear op path false

/-- One patch after the other, neither of them shifting an element of an array. -/
def AppliesThen (ops ops' : List PatchOp) (v v' : FabricValue) : Prop :=
  ∃ mid, applyPatch v ops = .ok mid ∧ applyPatch mid ops' = .ok v' ∧
    keepsElements v ops = true ∧ keepsElements mid ops' = true

theorem OneTouches.same (h : OneTouches ops ops' path) (hv : AppliesThen ops ops' v v')
    (hw : AppliesThen ops' ops v w') : valueAt v' path = valueAt w' path := by
  obtain ⟨mid, hmid, hv', hkeep, hkeep'⟩ := hv
  obtain ⟨mid', hmid', hw', hother, hother'⟩ := hw
  have hlast : valueAt v' path = valueAt mid path :=
    applyPatch_leavesAt hv' (fun op hop => (h.2 op hop).leavesAt _) hkeep' rfl
  have hfirst : valueAt mid' path = valueAt v path :=
    applyPatch_leavesAt hmid' (fun op hop => (h.2 op hop).leavesAt _) hother rfl
  rw [hlast]
  exact applyPatch_agree hmid hw' h.1 hkeep hother' hfirst.symm

end
