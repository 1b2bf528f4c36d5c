import CommonFabric.CommitReadCover
import CommonFabric.ConflictScan
import CommonFabric.ReadCheck

/-!
# Commits with shorter lists of reads

What the engine matches with a read it matches with a read that the compaction and the coarsening
keep, of the same document and basis. So the check of the reads passes a commit with the shorter
list only where it finds no conflict with the full one.
-/

namespace CommitReads

section Overlaps

variable {above below : ValuePath} {op : PatchOp} {leaves : List ValuePath}

theorem prefixPath_iff {left right : ValuePath} :
    isPrefixPath left right = true ↔ left <+: right := List.isPrefixOf_iff_prefix

theorem pathsOverlap_iff {left right : ValuePath} :
    pathsOverlap left right = true ↔ left <+: right ∨ right <+: left := by
  rw [pathsOverlap, Bool.or_eq_true, prefixPath_iff, prefixPath_iff]

/-- What touches a path or what is below it touches any path above it. -/
theorem touches_recursive (h : above <+: below)
    (htouch : opTouchesRead op leaves below false = true) :
    opTouchesRead op leaves above false = true := by
  obtain ⟨leaf, hleaf, hoverlap⟩ := List.any_eq_true.1
    (show leaves.any (pathsOverlap · below) = true from htouch)
  refine List.any_eq_true.2 ⟨leaf, hleaf, pathsOverlap_iff.2 ?_⟩
  rcases pathsOverlap_iff.1 hoverlap with hleaf | hleaf
  · exact List.prefix_or_prefix_of_prefix hleaf h
  · exact .inr (h.trans hleaf)

/-- What touches a path or what is above it touches any path above it too, or touches something
below that. -/
theorem touches_shallow (h : above <+: below)
    (htouch : opTouchesRead op leaves below true = true) :
    opTouchesRead op leaves above true = true ∨ opTouchesRead op leaves above false = true := by
  obtain ⟨touched, htouched, hbelow⟩ := List.any_eq_true.1
    (show (touchedPathsForPatch op leaves).any (isPrefixPath · below) = true from htouch)
  rw [prefixPath_iff] at hbelow
  rcases List.prefix_or_prefix_of_prefix hbelow h with hover | hunder
  · exact .inl (List.any_eq_true.2 ⟨touched, htouched, prefixPath_iff.2 hover⟩)
  · right
    -- a touched path is a leaf, or the parent of one that is touched below it
    have hleaf : ∃ leaf ∈ leaves, touched <+: leaf := by
      rw [touchedPathsForPatch] at htouched
      split at htouched
      · rcases List.mem_append.1 htouched with hleaf | hparent
        · exact ⟨touched, hleaf, List.prefix_rfl⟩
        · obtain ⟨leaf, hleaf, rfl⟩ := List.mem_map.1 hparent
          exact ⟨leaf, hleaf, List.dropLast_prefix leaf⟩
      · exact ⟨touched, htouched, List.prefix_rfl⟩
    obtain ⟨leaf, hleaf, hdown⟩ := hleaf
    exact List.any_eq_true.2 ⟨leaf, hleaf, pathsOverlap_iff.2 (.inr (hunder.trans hdown))⟩

theorem patchesTouchRead_lift {kind first second : Bool} {patches : List PatchOp}
    (hop : ∀ op leaves, opTouchesRead op leaves below kind = true →
      opTouchesRead op leaves above first = true ∨ opTouchesRead op leaves above second = true)
    (h : patchesTouchRead kind patches below = .ok true) :
    patchesTouchRead first patches above = .ok true ∨
      patchesTouchRead second patches above = .ok true := by
  induction patches with
  | nil => cases h
  | cons op patches ih =>
    rw [patchesTouchRead] at h
    obtain ⟨leaves, hleaves, h⟩ := Except.bind_ok_iff.1 h
    have hskip : ∀ kind, opTouchesRead op leaves above kind = true ∨
        patchesTouchRead kind patches above = .ok true →
        patchesTouchRead kind (op :: patches) above = .ok true := by
      intro kind hfound
      rw [patchesTouchRead, hleaves, Except.ok_bind]
      split
      · rfl
      case isFalse hnot => exact hfound.resolve_left hnot
    split at h
    case isTrue htouch =>
      exact (hop op leaves htouch).imp (fun h => hskip _ (.inl h)) fun h => hskip _ (.inl h)
    case isFalse => exact (ih h).imp (fun h => hskip _ (.inr h)) fun h => hskip _ (.inr h)

end Overlaps

/-- A `set` or a `delete` matches every read, and a patch those it overlaps. -/
def Matches (row : RevisionRow) (path : ValuePath) (nonRecursive : Bool) : Prop :=
  row.data.isPatch = false ∨
    patchesTouchRead nonRecursive (storedPatchList row) path = .ok true

theorem lifts_matches (row : RevisionRow) : Lifts (Matches row) where
  recursive above below h := by
    rintro (hset | hpatch)
    · exact .inl hset
    · have hlift : patchesTouchRead false (storedPatchList row) above = .ok true ∨
          patchesTouchRead false (storedPatchList row) above = .ok true :=
        patchesTouchRead_lift (fun op leaves htouch => .inl (touches_recursive h htouch)) hpatch
      exact .inr (hlift.elim id id)
  shallow above below h := by
    rintro (hset | hpatch)
    · exact .inl (.inl hset)
    · exact (patchesTouchRead_lift (fun op leaves htouch => touches_shallow h htouch) hpatch).imp
        .inr .inr

section Conflicts

variable {s : Store} {doc : DocInstance} {afterSeq : Nat} {exclude : Option Store.ConflictExclusion}
  {above below : ValuePath}

theorem conflictFree_recursive (h : above <+: below)
    (hfree : s.ConflictFree doc afterSeq above false exclude) :
    s.ConflictFree doc afterSeq below false exclude := by
  intro row hrow hafter hex
  obtain ⟨hpatch, hops⟩ := hfree row hrow hafter hex
  refine ⟨hpatch, fun op hop => ?_⟩
  obtain ⟨leaves, hleaves, hclear⟩ := hops op hop
  refine ⟨leaves, hleaves, Bool.eq_false_iff.2 fun htouch => ?_⟩
  rw [touches_recursive h htouch] at hclear
  cases hclear

theorem conflictFree_shallow (h : above <+: below)
    (hshallow : s.ConflictFree doc afterSeq above true exclude)
    (hrecursive : s.ConflictFree doc afterSeq above false exclude) :
    s.ConflictFree doc afterSeq below true exclude := by
  intro row hrow hafter hex
  obtain ⟨hpatch, hops⟩ := hshallow row hrow hafter hex
  refine ⟨hpatch, fun op hop => ?_⟩
  obtain ⟨leaves, hleaves, hclear⟩ := hops op hop
  obtain ⟨leaves', hleaves', hclear'⟩ := (hrecursive row hrow hafter hex).2 op hop
  obtain rfl := Except.ok.inj (hleaves.symm.trans hleaves')
  refine ⟨leaves, hleaves, Bool.eq_false_iff.2 fun htouch => ?_⟩
  rcases touches_shallow h htouch with htouch | htouch
  · rw [htouch] at hclear
    cases hclear
  · rw [htouch] at hclear'
    cases hclear'

variable {path : ValuePath} {kind : Bool}

/-- The plain scan of a read that conflicts with nothing finds nothing. -/
theorem directConflictSeq_none (hfree : s.ConflictFree doc afterSeq path kind exclude) :
    s.directConflictSeq doc afterSeq path kind exclude = .ok none := by
  have hset : s.selectSetDeleteConflict doc afterSeq exclude = none := by
    rw [Store.selectSetDeleteConflict, Option.map_eq_none_iff, Query.newest_eq_none_iff,
      List.filter_eq_nil_iff]
    intro row hrow htest
    simp only [Bool.and_eq_true, decide_eq_true_eq, Bool.not_eq_true'] at htest
    rw [(hfree row hrow htest.1.1 htest.2).1] at htest
    cases htest.1.2
  have hrows : ∀ rows : List RevisionRow,
      (∀ row ∈ rows, ∀ op ∈ storedPatchList row, OpClear op path kind) →
      Store.firstOverlap path kind rows = .ok none := by
    intro rows hclear
    induction rows with
    | nil => rfl
    | cons row rows ih =>
      rw [Store.firstOverlap, patchesTouchRead_of_clear (hclear row List.mem_cons_self)]
      exact ih fun row' hrow' => hclear row' (List.mem_cons_of_mem _ hrow')
  rw [Store.directConflictSeq, hset]
  refine hrows _ fun row hrow => ?_
  obtain ⟨hmem, hafter, -, hex⟩ := Store.mem_selectPatchConflicts.1 hrow
  exact (hfree row hmem hafter hex).2

theorem firstOverlap_error {rows : List RevisionRow}
    {e : EngineError} (h : Store.firstOverlap path kind rows = .error e) : ∃ p, e = .patch p := by
  induction rows with
  | nil => cases h
  | cons row rows ih =>
    rw [Store.firstOverlap] at h
    cases htouch : patchesTouchRead kind (storedPatchList row) path with
    | error p =>
      rw [htouch] at h
      exact ⟨p, (Except.error.inj h).symm⟩
    | ok touches =>
      rw [htouch] at h
      cases touches with
      | true => cases h
      | false => exact ih h

variable {scans : ConflictScans}

/-- A scan fails only at a patch whose paths cannot be read. -/
theorem findConflictSeq_error {e : EngineError} (hs : s.ScansExact scans)
    (h : s.findConflictSeq scans doc afterSeq path kind exclude = .error e) :
    ∃ p, e = .patch p := by
  have hfound := (Store.findConflictSeq_answers doc afterSeq path kind exclude hs).found
  rw [h, Store.directConflictSeq] at hfound
  cases hset : s.selectSetDeleteConflict doc afterSeq exclude with
  | some seq =>
    rw [hset] at hfound
    cases hfound
  | none =>
    rw [hset] at hfound
    exact firstOverlap_error hfound.symm

theorem findConflictSeq_none (hs : s.ScansExact scans)
    (hfree : s.ConflictFree doc afterSeq path kind exclude) :
    ∃ scans', s.findConflictSeq scans doc afterSeq path kind exclude = .ok (none, scans') ∧
      s.ScansExact scans' := by
  have hanswers := Store.findConflictSeq_answers doc afterSeq path kind exclude hs
  have hfound := hanswers.found
  rw [directConflictSeq_none hfree] at hfound
  cases hfind : s.findConflictSeq scans doc afterSeq path kind exclude with
  | error e =>
    rw [hfind] at hfound
    cases hfound
  | ok answer =>
    obtain ⟨found, scans'⟩ := answer
    rw [hfind] at hfound
    obtain rfl : found = none := Except.ok.inj hfound
    exact ⟨scans', rfl, hanswers.learned _ _ hfind⟩

end Conflicts

def ConfirmedCommitRead.onWire (read : ConfirmedCommitRead) : ConfirmedRead where
  id := read.id
  scope := read.scope
  branch := none
  path := read.path
  seq := read.seq
  nonRecursive := read.nonRecursive

def PendingCommitRead.onWire (read : PendingCommitRead) : PendingRead where
  id := read.id
  scope := read.scope
  path := read.path
  localSeq := read.localSeq.map Int.ofNat
  basisSeq := some read.basisSeq
  nonRecursive := read.nonRecursive

/-- A commit with these reads. -/
def ReadLists.commit (reads : ReadLists) (o : ApplyCommitOptions) : ApplyCommitOptions :=
  { o with commit := { o.commit with
      confirmed := reads.confirmed.map ConfirmedCommitRead.onWire
      pending := reads.pending.map PendingCommitRead.onWire } }

section Checks

open Commit

variable {s : Store} {branch : BranchName} {identity : ScopeKeyIdentity} {sessionKey : JsString}

theorem resolveScopeKey_congr {scope scope' : Option CellScope}
    (h : normalizeScope scope = normalizeScope scope') :
    resolveScopeKey scope identity = resolveScopeKey scope' identity := by
  have hscope : scope.getD .space = scope'.getD .space := h
  rw [resolveScopeKey, hscope, resolveScopeKey]

theorem lifts_true : Lifts fun _ _ => True := ⟨fun _ _ _ h => h, fun _ _ _ h => .inl h⟩

theorem lifts_conflict (doc : DocInstance) (afterSeq : Nat)
    (exclude : Option Store.ConflictExclusion) :
    Lifts fun p n => ¬s.ConflictFree doc afterSeq p n exclude where
  recursive above below h hbelow hfree := hbelow (conflictFree_recursive h hfree)
  shallow above below h hbelow := by
    by_contra hnot
    rw [not_or, not_not, not_not] at hnot
    exact hbelow (conflictFree_shallow h hnot.1 hnot.2)

/-- Where the reads of the shorter list are clear, those of the full list are. -/
theorem confirmedClear_of_keeps {short full : List ConfirmedCommitRead} (h : Keeps short full)
    (hclear : ∀ e ∈ short, ConfirmedClear s branch identity e.onWire)
    {read : ConfirmedCommitRead} (hread : read ∈ full) :
    ConfirmedClear s branch identity read.onWire := by
  obtain ⟨e, he, hbasis, -⟩ := h.covers _ lifts_true read hread trivial
  obtain ⟨scopeKey, hkey, -⟩ := hclear e he
  obtain ⟨hscope, -, -⟩ := Basis.confirmed.inj hbasis
  have hkey : resolveScopeKey read.scope identity = .ok scopeKey :=
    (resolveScopeKey_congr hscope).symm.trans hkey
  refine ⟨scopeKey, hkey, ?_⟩
  by_contra hconflict
  obtain ⟨e, he, hbasis, hhit⟩ := h.covers _
    (lifts_conflict ⟨branch, read.id, scopeKey⟩ read.seq none) read hread hconflict
  obtain ⟨scopeKey', hkey', hfree⟩ := hclear e he
  obtain ⟨hscope, hid, hseq⟩ := Basis.confirmed.inj hbasis
  obtain rfl : scopeKey' = scopeKey :=
    Except.ok.inj ((hkey'.symm.trans (resolveScopeKey_congr hscope)).trans hkey)
  rw [← hid, ← hseq] at hhit
  exact hhit hfree

/-- The identity layers of a read depend on its document and its layers. -/
theorem identityLayerBasis_congr {left right : PendingRead} (hid : left.id = right.id)
    (hscope : normalizeScope left.scope = normalizeScope right.scope)
    (hlayers : left.localSeq = right.localSeq) (basisSeq : Nat) :
    Identity.identityLayerBasis s sessionKey branch left basisSeq =
      Identity.identityLayerBasis s sessionKey branch right basisSeq := by
  have hsame : Identity.sameDocument left.id left.scope =
      Identity.sameDocument right.id right.scope := by
    funext id scope
    rw [Identity.sameDocument, Identity.sameDocument, hid, hscope]
  have hops : ∀ steps, Identity.replayableOpIndexes left steps =
      Identity.replayableOpIndexes right steps := by
    intro steps
    induction steps with
    | nil => rfl
    | cons step rest ih =>
      obtain ⟨operation, opIndex⟩ := step
      cases operation <;> simp only [Identity.replayableOpIndexes, hsame, ih]
  have hlayer : ∀ row, Identity.identityLayer s branch left basisSeq row =
      Identity.identityLayer s branch right basisSeq row := by
    intro row
    simp only [Identity.identityLayer, Identity.viewIsProved, hops, hsame, hlayers]
  simp only [Identity.identityLayerBasis, hlayers, hlayer]

/-- What a pending read's scan must not find, from its basis or from its identity layer. -/
def ClearFrom (s : Store) (doc : DocInstance) (basisSeq identityBasis : Nat)
    (exclude : Option Store.ConflictExclusion) (path : ValuePath) (kind : Bool) : Prop :=
  s.ConflictFree doc basisSeq path kind exclude ∨
    basisSeq < identityBasis ∧ s.ConflictFree doc identityBasis path kind exclude

theorem lifts_unclear (doc : DocInstance) (basisSeq identityBasis : Nat)
    (exclude : Option Store.ConflictExclusion) :
    Lifts fun p n => ¬ClearFrom s doc basisSeq identityBasis exclude p n where
  recursive above below h hbelow := by
    rintro (hfree | ⟨hlt, hfree⟩)
    · exact hbelow (.inl (conflictFree_recursive h hfree))
    · exact hbelow (.inr ⟨hlt, conflictFree_recursive h hfree⟩)
  shallow above below h hbelow := by
    by_contra hnot
    rw [not_or, not_not, not_not] at hnot
    -- clear from its basis, a read is clear from any later one
    have hlater : ∀ kind, s.ConflictFree doc basisSeq above kind exclude →
        basisSeq < identityBasis → s.ConflictFree doc identityBasis above kind exclude :=
      fun kind hfree hlt row hrow hafter => hfree row hrow (by omega)
    rcases hnot with ⟨hshallow | ⟨hlt, hshallow⟩, hrecursive | ⟨hlt', hrecursive⟩⟩
    · exact hbelow (.inl (conflictFree_shallow h hshallow hrecursive))
    · exact hbelow (.inr ⟨hlt', conflictFree_shallow h (hlater _ hshallow hlt') hrecursive⟩)
    · exact hbelow (.inr ⟨hlt, conflictFree_shallow h hshallow (hlater _ hrecursive hlt)⟩)
    · exact hbelow (.inr ⟨hlt, conflictFree_shallow h hshallow hrecursive⟩)

theorem pendingClear_of_keeps {short full : List PendingCommitRead} (h : Keeps short full)
    (hclear : ∀ e ∈ short, PendingClear s sessionKey branch identity e.onWire)
    {read : PendingCommitRead} (hread : read ∈ full) :
    PendingClear s sessionKey branch identity read.onWire := by
  obtain ⟨e, he, hbasis, -⟩ := h.covers _ lifts_true read hread trivial
  obtain ⟨hscope, -, hlayers, hseq⟩ := Basis.pending.inj hbasis
  obtain ⟨scopeKey, hkey, -⟩ := (hclear e he).basis _ rfl
  have hkey : resolveScopeKey read.scope identity = .ok scopeKey :=
    (resolveScopeKey_congr hscope).symm.trans hkey
  constructor
  · intro localSeq hlocal
    refine (hclear e he).layers localSeq ?_
    rw [PendingCommitRead.onWire, hlayers]
    exact hlocal
  · rintro basisSeq ⟨rfl⟩
    refine ⟨scopeKey, hkey, ?_⟩
    by_contra hconflict
    obtain ⟨e, he, hbasis, hhit⟩ := h.covers _ (lifts_unclear ⟨branch, read.id, scopeKey⟩
      read.basisSeq (Identity.identityLayerBasis s sessionKey branch read.onWire read.basisSeq)
      (ownLayers sessionKey read.onWire)) read hread hconflict
    obtain ⟨hscope, hid, hlayers, hseq⟩ := Basis.pending.inj hbasis
    obtain ⟨scopeKey', hkey', hfree⟩ := (hclear e he).basis _ rfl
    obtain rfl : scopeKey' = scopeKey :=
      Except.ok.inj ((hkey'.symm.trans (resolveScopeKey_congr hscope)).trans hkey)
    have hexclude : ownLayers sessionKey e.onWire = ownLayers sessionKey read.onWire := by
      rw [ownLayers, ownLayers, PendingCommitRead.onWire, PendingCommitRead.onWire, hlayers]
    have hidentity : Identity.identityLayerBasis s sessionKey branch e.onWire e.basisSeq =
        Identity.identityLayerBasis s sessionKey branch read.onWire e.basisSeq :=
      identityLayerBasis_congr hid hscope (congrArg (List.map Int.ofNat) hlayers) _
    have hclear : ClearFrom s ⟨branch, e.id, scopeKey'⟩ e.basisSeq
        (Identity.identityLayerBasis s sessionKey branch e.onWire e.basisSeq)
        (ownLayers sessionKey e.onWire) e.path e.nonRecursive := hfree
    rw [hidentity, hexclude, hid, hseq] at hclear
    exact hhit hclear

theorem checkConfirmedReads_clear {reads : List ConfirmedRead} {scans : ConflictScans}
    (hclear : ∀ read ∈ reads, (∃ state, s.requireBranch (read.branch.getD branch) = .ok state) ∧
      ConfirmedClear s branch identity read) (hs : s.ScansExact scans) :
    ∃ scans', reads.foldlM (checkConfirmedRead s branch identity) ⟨scans, [], []⟩ =
      .ok ⟨scans', [], []⟩ ∧ s.ScansExact scans' := by
  induction reads generalizing scans with
  | nil => exact ⟨scans, rfl, hs⟩
  | cons read reads ih =>
    obtain ⟨⟨state, hstate⟩, scopeKey, hkey, hfree⟩ := hclear read List.mem_cons_self
    obtain ⟨scans', hfind, hs'⟩ := findConflictSeq_none hs hfree
    have hcheck : checkConfirmedRead s branch identity ⟨scans, [], []⟩ read =
        .ok ⟨scans', [], []⟩ := by
      rw [checkConfirmedRead, hstate, Except.ok_bind, hkey, Except.ok_bind]
      dsimp only
      rw [hfind]
      rfl
    rw [List.foldlM_cons, hcheck, Except.ok_bind]
    exact ih (fun read' hread' => hclear read' (List.mem_cons_of_mem _ hread')) hs'

theorem resolveLayers_of_resolved {layers : List Int} (resolutions : List PendingResolution)
    (h : ∀ localSeq ∈ layers, (s.selectPendingResolution sessionKey localSeq).isSome = true) :
    ∃ resolutions', resolveLayers s sessionKey resolutions layers = .ok resolutions' := by
  induction layers generalizing resolutions with
  | nil => exact ⟨resolutions, rfl⟩
  | cons localSeq rest ih =>
    have hrest := fun resolutions => ih resolutions fun l hl => h l (List.mem_cons_of_mem _ hl)
    obtain ⟨seq, hseq⟩ := Option.isSome_iff_exists.1 (h localSeq List.mem_cons_self)
    rw [resolveLayers]
    split
    · exact hrest resolutions
    · rw [hseq]
      exact hrest _

/-- An error other than a conflict. -/
def NoConflict (e : EngineError) : Prop := ∀ message conflicts, e ≠ .conflict message conflicts

theorem pendingConflictSeq_clear {read : PendingRead} {scans : ConflictScans}
    {scopeKey : ScopeKey} {basisSeq : Nat} (layerSeq : Nat) (hbasis : read.basisSeq = some basisSeq)
    (hclear : ClearFrom s ⟨branch, read.id, scopeKey⟩ basisSeq
      (Identity.identityLayerBasis s sessionKey branch read basisSeq)
      (ownLayers sessionKey read) read.path read.nonRecursive) (hs : s.ScansExact scans) :
    (∃ scans', pendingConflictSeq s sessionKey scans ⟨branch, read.id, scopeKey⟩ read layerSeq =
      .ok (none, scans') ∧ s.ScansExact scans') ∨
    ∃ e, pendingConflictSeq s sessionKey scans ⟨branch, read.id, scopeKey⟩ read layerSeq =
      .error e ∧ NoConflict e := by
  rw [pendingConflictSeq, hbasis]
  dsimp only
  cases hfind : s.findConflictSeq scans ⟨branch, read.id, scopeKey⟩ basisSeq read.path
      read.nonRecursive (some ⟨sessionKey, read.localSeq⟩) with
  | error e =>
    obtain ⟨p, rfl⟩ := findConflictSeq_error hs hfind
    exact .inr ⟨_, rfl, fun _ _ h => by cases h⟩
  | ok answer =>
    obtain ⟨found, scans₁⟩ := answer
    have hs₁ := (Store.findConflictSeq_answers _ _ _ _ _ hs).learned _ _ hfind
    left
    rw [Except.ok_bind]
    dsimp only
    cases found with
    | none => exact ⟨scans₁, rfl, hs₁⟩
    | some seq =>
      rcases hclear with hfree | ⟨hlt, hfree⟩
      · obtain ⟨scans', hnone, -⟩ := findConflictSeq_none hs hfree
        cases hnone.symm.trans hfind
      · rw [Option.isSome_some, Bool.true_and, if_pos (decide_eq_true hlt)]
        exact findConflictSeq_none hs₁ hfree

theorem checkPendingRead_clear {read : PendingRead} {st : PendingState} {basisSeq : Nat}
    (hlayers : read.localSeq ≠ []) (hbasis : read.basisSeq = some basisSeq)
    (hclear : PendingClear s sessionKey branch identity read) (hs : s.ScansExact st.scans) :
    (∃ st', checkPendingRead s sessionKey branch identity true st read = .ok st' ∧
      s.ScansExact st'.scans) ∨
    ∃ e, checkPendingRead s sessionKey branch identity true st read = .error e ∧ NoConflict e := by
  obtain ⟨resolutions, hresolved⟩ := resolveLayers_of_resolved st.resolutions hclear.layers
  obtain ⟨scopeKey, hkey, hfrom⟩ := hclear.basis basisSeq hbasis
  rw [checkPendingRead, require, if_pos (decide_eq_true hlayers), Except.ok_bind, hresolved,
    Except.ok_bind]
  simp only [Bool.not_true, Bool.false_eq_true, if_false]
  rw [hkey, Except.ok_bind]
  rcases pendingConflictSeq_clear (highestLayer resolutions read.localSeq).seq hbasis hfrom hs with ⟨scans', hfind, hs'⟩ | ⟨e, hfind, he⟩
  · rw [hfind]
    exact .inl ⟨⟨scans', resolutions⟩, rfl, hs'⟩
  · rw [hfind]
    exact .inr ⟨e, rfl, he⟩

theorem checkPendingReads_clear {reads : List PendingRead} {st : PendingState}
    (hclear : ∀ read ∈ reads, read.localSeq ≠ [] ∧ (∃ basisSeq, read.basisSeq = some basisSeq) ∧
      PendingClear s sessionKey branch identity read) (hs : s.ScansExact st.scans) {e : EngineError}
    (h : reads.foldlM (checkPendingRead s sessionKey branch identity true) st = .error e) :
    NoConflict e := by
  induction reads generalizing st with
  | nil => cases h
  | cons read reads ih =>
    obtain ⟨hlayers, ⟨basisSeq, hbasis⟩, hread⟩ := hclear read List.mem_cons_self
    rw [List.foldlM_cons] at h
    rcases checkPendingRead_clear hlayers hbasis hread hs with ⟨st', hcheck, hs'⟩ | ⟨e', hcheck, he⟩
    · rw [hcheck, Except.ok_bind] at h
      exact ih (fun read' hread' => hclear read' (List.mem_cons_of_mem _ hread')) hs' h
    · rw [hcheck, Except.error_bind] at h
      exact Except.error.inj h ▸ he

theorem requireBranch_of_checked {reads : List ConfirmedRead} {st st' : ConfirmedState}
    (h : reads.foldlM (checkConfirmedRead s branch identity) st = .ok st') :
    ∀ read ∈ reads, ∃ state, s.requireBranch (read.branch.getD branch) = .ok state := by
  induction reads generalizing st with
  | nil =>
    intro read hread
    cases hread
  | cons first reads ih =>
    obtain ⟨st₁, hstep, h⟩ := List.foldlM_cons_ok.1 h
    intro read hread
    rcases List.mem_cons.1 hread with rfl | hread
    · obtain ⟨state, hstate, -⟩ := Except.bind_ok_iff.1 hstep
      exact ⟨state, hstate⟩
    · exact ih h read hread

theorem layers_of_checked {reads : List PendingRead} {st st' : PendingState}
    (h : reads.foldlM (checkPendingRead s sessionKey branch identity true) st = .ok st') :
    ∀ read ∈ reads, read.localSeq ≠ [] := by
  induction reads generalizing st with
  | nil =>
    intro read hread
    cases hread
  | cons first reads ih =>
    obtain ⟨st₁, hstep, h⟩ := List.foldlM_cons_ok.1 h
    intro read hread
    rcases List.mem_cons.1 hread with rfl | hread
    · obtain ⟨hlayers, -⟩ := Except.check_ok_iff.1 hstep
      simpa using hlayers
    · exact ih h read hread

/-- Where the check passes the reads of the shorter list, it finds no conflict with the full
one. -/
theorem validateReads_full {o : ApplyCommitOptions} {short full : ReadLists}
    (hconfirmed : Keeps short.confirmed full.confirmed) (hpending : Keeps short.pending full.pending)
    {resolved : List PendingResolution} (h : validateReads s sessionKey (short.commit o) = .ok resolved)
    {e : EngineError} (hfull : validateReads s sessionKey (full.commit o) = .error e) :
    NoConflict e := by
  obtain ⟨hclear, hclear'⟩ := validateReads_ok h
  obtain ⟨scans, hshort, hrest⟩ := Except.bind_ok_iff.1 h
  obtain ⟨st, hfold, -⟩ := Except.bind_ok_iff.1 hshort
  obtain ⟨st', hfold', -⟩ := Except.bind_ok_iff.1 hrest
  have hallConfirmed : ∀ read ∈ (full.commit o).commit.confirmed,
      (∃ state, s.requireBranch (read.branch.getD o.branch) = .ok state) ∧
        ConfirmedClear s o.branch o.session read := by
    intro wire hwire
    obtain ⟨read, hread, rfl⟩ := List.mem_map.1 hwire
    obtain ⟨e, he, -⟩ := hconfirmed.covers _ lifts_true read hread trivial
    exact ⟨requireBranch_of_checked hfold e.onWire (List.mem_map_of_mem he),
      confirmedClear_of_keeps hconfirmed (fun e he => hclear _ (List.mem_map_of_mem he)) hread⟩
  have hallPending : ∀ read ∈ (full.commit o).commit.pending, read.localSeq ≠ [] ∧
      (∃ basisSeq, read.basisSeq = some basisSeq) ∧
        PendingClear s sessionKey o.branch o.session read := by
    intro wire hwire
    obtain ⟨read, hread, rfl⟩ := List.mem_map.1 hwire
    obtain ⟨e, he, hbasis, -⟩ := hpending.covers _ lifts_true read hread trivial
    obtain ⟨-, -, hlayers, -⟩ := Basis.pending.inj hbasis
    have hne := layers_of_checked hfold' e.onWire (List.mem_map_of_mem he)
    rw [PendingCommitRead.onWire, hlayers] at hne
    exact ⟨hne, ⟨_, rfl⟩,
      pendingClear_of_keeps hpending (fun e he => hclear' _ (List.mem_map_of_mem he)) hread⟩
  obtain ⟨scans', hpass, hs⟩ := checkConfirmedReads_clear hallConfirmed Store.scansExact_nil
  have hvalid : validateConfirmedReads s (full.commit o) = .ok scans' := by
    rw [validateConfirmedReads]
    exact congrArg (Except.bind · _) hpass
  rw [validateReads, hvalid, Except.ok_bind, resolvePendingReads] at hfull
  cases hpendings : (full.commit o).commit.pending.foldlM (checkPendingRead s sessionKey
      (full.commit o).branch (full.commit o).session true) ⟨scans', []⟩ with
  | ok st =>
    rw [hpendings] at hfull
    cases hfull
  | error e' =>
    rw [hpendings] at hfull
    cases hfull
    exact checkPendingReads_clear hallPending hs hpendings

end Checks

/-- The lists that a commit may carry for its reads: compacted, and coarsened for the wire. -/
def shorterLists (reads : ReadLists)
    (confirmedDocument : ConfirmedCommitRead → Option EntityDocument)
    (pendingDocument : PendingCommitRead → Option EntityDocument) : List ReadLists :=
  let compacted : ReadLists := ⟨compactCommitReads reads.confirmed confirmedDocument,
    compactCommitReads reads.pending pendingDocument⟩
  [compacted, coarsenCommitReads compacted, coarsenCommitReads reads]

theorem shorterLists_keep {reads short : ReadLists}
    {confirmedDocument : ConfirmedCommitRead → Option EntityDocument}
    {pendingDocument : PendingCommitRead → Option EntityDocument}
    (h : short ∈ shorterLists reads confirmedDocument pendingDocument) :
    Keeps short.confirmed reads.confirmed ∧ Keeps short.pending reads.pending := by
  have hconfirmed := compactCommitReads_keeps reads.confirmed confirmedDocument
  have hpending := compactCommitReads_keeps reads.pending pendingDocument
  simp only [shorterLists, List.mem_cons, List.not_mem_nil, or_false] at h
  rcases h with rfl | rfl | rfl
  · exact ⟨hconfirmed, hpending⟩
  · exact ⟨(coarsen_keeps _).trans hconfirmed, (coarsen_keeps _).trans hpending⟩
  · exact ⟨coarsen_keeps _, coarsen_keeps _⟩

/-- Every revision that matches a read matches one that the shorter list keeps, of the same document
and basis; and a commit whose reads the engine finds a conflict with is not passed with the shorter
list. -/
theorem shorter_reads_lose_no_conflict (reads short : ReadLists)
    (confirmedDocument : ConfirmedCommitRead → Option EntityDocument)
    (pendingDocument : PendingCommitRead → Option EntityDocument)
    (hshort : short ∈ shorterLists reads confirmedDocument pendingDocument) :
    (∀ read ∈ reads.confirmed, ∀ row, Matches row read.path read.nonRecursive →
      ∃ e ∈ short.confirmed, basis e = basis read ∧ Matches row e.path e.nonRecursive) ∧
    (∀ read ∈ reads.pending, ∀ row, Matches row read.path read.nonRecursive →
      ∃ e ∈ short.pending, basis e = basis read ∧ Matches row e.path e.nonRecursive) ∧
    (∀ e ∈ short.confirmed, ∃ read ∈ reads.confirmed, basis e = basis read) ∧
    (∀ e ∈ short.pending, ∃ read ∈ reads.pending, basis e = basis read) ∧
    ∀ (s : Store) (sessionKey : JsString) (o : ApplyCommitOptions) (message : JsString)
      (conflicts : List ConfirmedReadConflict),
      Commit.validateReads s sessionKey (reads.commit o) = .error (.conflict message conflicts) →
      ∀ resolved, Commit.validateReads s sessionKey (short.commit o) ≠ .ok resolved := by
  obtain ⟨hconfirmed, hpending⟩ := shorterLists_keep hshort
  refine ⟨?_, ?_, hconfirmed.named, hpending.named, ?_⟩
  · intro read hread row hmatches
    exact hconfirmed.covers _ (lifts_matches row) read hread hmatches
  · intro read hread row hmatches
    exact hpending.covers _ (lifts_matches row) read hread hmatches
  · intro s sessionKey o message conflicts hfull resolved hpasses
    exact validateReads_full hconfirmed hpending hpasses hfull message conflicts rfl

/-- A shallow read of a record whose one member is read. -/
def boardReads : ReadLists where
  confirmed := [⟨"of:board", none, ["value"], 3, true⟩, ⟨"of:board", none, ["value", "a"], 3, false⟩]
  pending := []

def boardDocument : EntityDocument := ⟨[("value", .record [("a", .null)])]⟩

/-- A member that is added beside it matches what the compaction states. -/
theorem added_member_matches :
    ∃ e ∈ compactCommitReads boardReads.confirmed (fun _ => some boardDocument),
      basis e = .confirmed .space "of:board" 3 ∧
        Matches ⟨⟨"", "of:board", "space"⟩, 4, 0, .patch [.add "/value/b" .null], 4⟩ e.path
          e.nonRecursive :=
  (shorter_reads_lose_no_conflict boardReads _ (fun _ => some boardDocument) (fun _ => none)
    List.mem_cons_self).1 ⟨"of:board", none, ["value"], 3, true⟩ List.mem_cons_self _
    (.inr (by decide +kernel))

end CommitReads
