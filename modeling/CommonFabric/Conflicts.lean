import CommonFabric.Reconstruct

/-!
# The conflict scan

A read is checked against the rows written after its basis: any `set` or
`delete` conflicts with it, and a patch conflicts when one of its touched paths
matches the read's. What the scan of one document learns is kept for the
commit's later reads, the touched paths in an index by pointer.
-/

/-- The newest seq under each pointer. -/
abbrev NewestMap := List (JsString × Nat)

namespace NewestMap

def get? (m : NewestMap) (pointer : JsString) : Option Nat :=
  (m.find? fun e => e.1 = pointer).map (·.2)

/-- `map.set(pointer, Math.max(map.get(pointer) ?? seq, seq))` -/
def raise (m : NewestMap) (pointer : JsString) (seq : Nat) : NewestMap :=
  (pointer, max ((get? m pointer).getD seq) seq) :: m.filter (·.1 ≠ pointer)

/-- Some seq at or past `seq` stands under the pointer. -/
def Holds (m : NewestMap) (pointer : JsString) (seq : Nat) : Prop :=
  ∃ n, get? m pointer = some n ∧ seq ≤ n

theorem get?_raise_self (m : NewestMap) (pointer : JsString) (seq : Nat) :
    get? (raise m pointer seq) pointer = some (max ((get? m pointer).getD seq) seq) := by
  simp [get?, raise]

theorem get?_raise_other (m : NewestMap) {pointer pointer' : JsString} (seq : Nat)
    (h : pointer' ≠ pointer) : get? (raise m pointer seq) pointer' = get? m pointer' := by
  simp only [get?, raise, List.find?_cons, Ne.symm h, decide_false]
  congr 1
  induction m with
  | nil => rfl
  | cons e m ih => by_cases he : e.1 = pointer <;> by_cases he' : e.1 = pointer' <;> simp_all

theorem raise_self (m : NewestMap) (pointer : JsString) (seq : Nat) :
    (raise m pointer seq).Holds pointer seq :=
  ⟨_, get?_raise_self m pointer seq, le_max_right _ _⟩

theorem Holds.raise {m : NewestMap} {pointer : JsString} {seq : Nat} (h : m.Holds pointer seq)
    (pointer' : JsString) (seq' : Nat) : (m.raise pointer' seq').Holds pointer seq := by
  obtain ⟨n, hn, hle⟩ := h
  by_cases he : pointer = pointer'
  · subst he
    refine ⟨_, get?_raise_self m pointer seq', ?_⟩
    rw [hn, Option.getD_some]
    omega
  · exact ⟨n, by rw [get?_raise_other m seq' he, hn], hle⟩

end NewestMap

/-- `prefixPointers`: the pointer of each prefix of a path, the root's first. -/
def prefixPointers (path : ValuePath) : List JsString := "" :: go "" path
where
  go (pointer : JsString) : ValuePath → List JsString
    | [] => []
    | segment :: rest =>
      let next := JsString.append pointer (Pointer.encodePointer [segment])
      next :: go next rest

theorem prefixPointers_go (pre path : ValuePath) :
    prefixPointers.go (Pointer.encodePointer pre) path =
      path.inits.tail.map fun q => Pointer.encodePointer (pre ++ q) := by
  induction path generalizing pre with
  | nil => rfl
  | cons segment rest ih =>
    have hnext : JsString.append (Pointer.encodePointer pre) (Pointer.encodePointer [segment]) =
        Pointer.encodePointer (pre ++ [segment]) := by
      simp [JsString.append, Pointer.encodePointer]
    simp only [prefixPointers.go, hnext, ih, List.inits_cons, List.tail_cons, List.map_map]
    cases rest <;> simp [Function.comp_def]

/-- Each prefix's pointer is listed. -/
theorem prefixPointers_eq (path : ValuePath) :
    prefixPointers path = path.inits.map Pointer.encodePointer := by
  have hroot : JsString.ofString "" = Pointer.encodePointer [] := by decide
  have hgo := prefixPointers_go [] path
  simp only [List.nil_append] at hgo
  rw [prefixPointers, hroot, hgo]
  cases path <;> simp

theorem encodePointer_mem_prefixPointers {pre path : ValuePath}
    (h : isPrefixPath pre path = true) : Pointer.encodePointer pre ∈ prefixPointers path := by
  rw [prefixPointers_eq]
  refine List.mem_map.2 ⟨pre, ?_, rfl⟩
  rw [List.mem_inits]
  obtain ⟨r, hr⟩ := (isPrefixPath_iff _ _).1 h
  exact ⟨r, hr.symm⟩

/-- `pointers[pointers.length - 1]`. -/
def ownPointer (path : ValuePath) : JsString := (prefixPointers path).getLastD ""

theorem ownPointer_eq (path : ValuePath) : ownPointer path = Pointer.encodePointer path := by
  rw [ownPointer, prefixPointers_eq]
  induction path using List.reverseRecOn with
  | nil => rfl
  | append_singleton path k _ =>
    rw [List.inits_append]
    simp

structure TouchedPathIndex where
  newestAt : NewestMap
  newestBelow : NewestMap
  deriving DecidableEq

namespace TouchedPathIndex

def empty : TouchedPathIndex := ⟨[], []⟩

def add (index : TouchedPathIndex) (path : ValuePath) (seq : Nat) : TouchedPathIndex where
  newestBelow := (prefixPointers path).foldl (·.raise · seq) index.newestBelow
  newestAt := index.newestAt.raise (ownPointer path) seq

/-- The larger of two seqs, where `none` stands for no seq at all. -/
def newer : Option Nat → Option Nat → Option Nat
  | none, right => right
  | left, none => left
  | some left, some right => some (max left right)

def newestAtPrefixes (index : TouchedPathIndex) (pointers : List JsString) : Option Nat :=
  pointers.foldl (fun newest pointer => newer newest (index.newestAt.get? pointer)) none

def newestPrefixOf (index : TouchedPathIndex) (path : ValuePath) : Option Nat :=
  index.newestAtPrefixes (prefixPointers path)

def newestOverlapping (index : TouchedPathIndex) (path : ValuePath) : Option Nat :=
  newer (index.newestAtPrefixes (prefixPointers path)) (index.newestBelow.get? (ownPointer path))

/-- A seq at or past `seq` stands where a query that `path` matches looks. -/
structure Covers (index : TouchedPathIndex) (path : ValuePath) (seq : Nat) : Prop where
  at_ : index.newestAt.Holds (Pointer.encodePointer path) seq
  below : ∀ pre, isPrefixPath pre path = true →
    index.newestBelow.Holds (Pointer.encodePointer pre) seq

variable {pointer : JsString} {seq : Nat} {index : TouchedPathIndex}

theorem holds_foldl_raise {m : NewestMap}
    (pointers : List JsString) (seq' : Nat) (h : m.Holds pointer seq) :
    (pointers.foldl (·.raise · seq') m).Holds pointer seq := by
  induction pointers generalizing m with
  | nil => exact h
  | cons p pointers ih => exact ih (h.raise p seq')

theorem holds_foldl_raise_mem {m : NewestMap} {pointers : List JsString}
    (seq : Nat) (h : pointer ∈ pointers) :
    (pointers.foldl (·.raise · seq) m).Holds pointer seq := by
  induction pointers generalizing m with
  | nil => cases h
  | cons p pointers ih =>
    rcases List.mem_cons.1 h with rfl | h
    · exact holds_foldl_raise pointers seq (m.raise_self pointer seq)
    · exact ih h

theorem covers_add_self (index : TouchedPathIndex) (path : ValuePath) (seq : Nat) :
    (index.add path seq).Covers path seq where
  at_ := by rw [← ownPointer_eq]; exact NewestMap.raise_self _ _ _
  below pre h := holds_foldl_raise_mem seq (encodePointer_mem_prefixPointers h)

theorem Covers.add {path : ValuePath} (h : index.Covers path seq) (path' : ValuePath) (seq' : Nat) :
    (index.add path' seq').Covers path seq where
  at_ := h.at_.raise _ _
  below pre hp := holds_foldl_raise _ _ (h.below pre hp)

theorem newer_left {a b : Option Nat} {n : Nat} (h : ∃ m, a = some m ∧ n ≤ m) :
    ∃ m, newer a b = some m ∧ n ≤ m := by
  obtain ⟨m, rfl, hm⟩ := h
  cases b with
  | none => exact ⟨m, rfl, hm⟩
  | some b => exact ⟨max m b, rfl, by omega⟩

theorem newer_right {a b : Option Nat} {n : Nat} (h : ∃ m, b = some m ∧ n ≤ m) :
    ∃ m, newer a b = some m ∧ n ≤ m := by
  obtain ⟨m, rfl, hm⟩ := h
  cases a with
  | none => exact ⟨m, rfl, hm⟩
  | some a => exact ⟨max a m, rfl, by omega⟩

theorem newestAtPrefixes_of_mem {pointers : List JsString} (hmem : pointer ∈ pointers)
    (h : index.newestAt.Holds pointer seq) :
    ∃ n, index.newestAtPrefixes pointers = some n ∧ seq ≤ n := by
  have hkeep : ∀ (ps : List JsString) (acc : Option Nat), (∃ n, acc = some n ∧ seq ≤ n) →
      ∃ n, ps.foldl (fun newest p => newer newest (index.newestAt.get? p)) acc = some n ∧
        seq ≤ n := by
    intro ps
    induction ps with
    | nil => intro acc hacc; exact hacc
    | cons p ps ih => intro acc hacc; exact ih _ (newer_left hacc)
  suffices ∀ acc, ∃ n,
      pointers.foldl (fun newest p => newer newest (index.newestAt.get? p)) acc = some n ∧
        seq ≤ n from this none
  induction pointers with
  | nil => cases hmem
  | cons p pointers ih =>
    intro acc
    rcases List.mem_cons.1 hmem with rfl | hmem
    · exact hkeep pointers _ (newer_right h)
    · exact ih hmem _

/-- A query misses no added path that prefixes its own. -/
theorem Covers.newestPrefixOf {path query : ValuePath}
    (h : index.Covers path seq) (hp : isPrefixPath path query = true) :
    ∃ n, index.newestPrefixOf query = some n ∧ seq ≤ n :=
  newestAtPrefixes_of_mem (encodePointer_mem_prefixPointers hp) h.at_

/-- A query misses no added path that overlaps its own. -/
theorem Covers.newestOverlapping {path query : ValuePath}
    (h : index.Covers path seq) (hp : pathsOverlap path query = true) :
    ∃ n, index.newestOverlapping query = some n ∧ seq ≤ n := by
  rw [pathsOverlap, Bool.or_eq_true] at hp
  rcases hp with hp | hp
  · exact newer_left (h.newestPrefixOf hp)
  · refine newer_right ?_
    rw [ownPointer_eq]
    exact h.below query hp

end TouchedPathIndex

structure PatchIndexes where
  leaves : TouchedPathIndex
  shapes : TouchedPathIndex
  deriving DecidableEq

/-- What one commit's read validation has learned of the writes to one document. -/
structure DocumentConflicts where
  newestSetOrDelete : List (Nat × Option Nat)
  /-- Every patch after a basis, indexed. -/
  patches : Option (Nat × PatchIndexes)
  deriving DecidableEq

/-- `conflictScanKey`: a document and an exclusion, the layers it names as a set. -/
structure ScanKey where
  doc : DocInstance
  exclude : Option (JsString × List Int)
  deriving DecidableEq

abbrev ConflictScans := List (ScanKey × DocumentConflicts)

def conflictScanKey (doc : DocInstance) (exclude : Option Store.ConflictExclusion) : ScanKey :=
  ⟨doc, exclude.map fun e =>
    (e.sessionKey, (e.namedLocalSeqs.dedup).insertionSort (· ≤ ·))⟩

namespace ConflictScans

def get (scans : ConflictScans) (key : ScanKey) : DocumentConflicts :=
  ((scans.find? fun e => e.1 = key).map (·.2)).getD ⟨[], none⟩

def put (scans : ConflictScans) (key : ScanKey) (d : DocumentConflicts) : ConflictScans :=
  (key, d) :: scans.filter (·.1 ≠ key)

theorem get_put_self (scans : ConflictScans) (key : ScanKey) (d : DocumentConflicts) :
    (scans.put key d).get key = d := by
  simp [get, put]

theorem get_put_other (scans : ConflictScans) {key key' : ScanKey} (d : DocumentConflicts)
    (h : key' ≠ key) : (scans.put key d).get key' = scans.get key' := by
  simp only [get, put, List.find?_cons, Ne.symm h, decide_false]
  congr 2
  induction scans with
  | nil => rfl
  | cons e scans ih => by_cases he : e.1 = key <;> by_cases he' : e.1 = key' <;> simp_all

end ConflictScans

def newestPatchConflict (indexes : PatchIndexes) (readPath : ValuePath) (nonRecursive : Bool) :
    Option Nat :=
  if nonRecursive then indexes.shapes.newestPrefixOf readPath
  else indexes.leaves.newestOverlapping readPath

/-- The indexes with one patch operation's touched paths added. -/
def PatchIndexes.addOp (indexes : PatchIndexes) (op : PatchOp) (leaves : List ValuePath)
    (seq : Nat) : PatchIndexes where
  leaves := leaves.foldl (·.add · seq) indexes.leaves
  shapes := (touchedPathsForPatch op leaves).foldl (·.add · seq) indexes.shapes

/-- Reads patches newest first, an operation at a time, up to one the read
conflicts with. -/
def scanOps (readPath : ValuePath) (nonRecursive : Bool) :
    PatchIndexes → List (Nat × PatchOp) → Except EngineError (Option Nat × PatchIndexes)
  | indexes, [] => .ok (none, indexes)
  | indexes, (seq, op) :: rest => do
    let leaves ← liftPatch (touchedLeafPathsForPatch op)
    let indexes := indexes.addOp op leaves seq
    match newestPatchConflict indexes readPath nonRecursive with
    | some found => .ok (some found, indexes)
    | none => scanOps readPath nonRecursive indexes rest

/-- The operations of patch rows, each with its row's seq. -/
def rowOps (rows : List RevisionRow) : List (Nat × PatchOp) :=
  rows.flatMap fun row => (storedPatchList row).map fun op => (row.seq, op)

namespace Store

/-- The seq of the write a read conflicts with, or `none`, and what the scan learned. -/
def findConflictSeq (s : Store) (scans : ConflictScans) (doc : DocInstance) (afterSeq : Nat)
    (readPath : ValuePath) (nonRecursive : Bool) (exclude : Option ConflictExclusion) :
    Except EngineError (Option Nat × ConflictScans) :=
  let key := conflictScanKey doc exclude
  let document := scans.get key
  let setOrDeleteSeq := match document.newestSetOrDelete.find? fun e => e.1 = afterSeq with
    | some known => known.2
    | none => s.selectSetDeleteConflict doc afterSeq exclude
  let document := { document with
    newestSetOrDelete := (afterSeq, setOrDeleteSeq) :: document.newestSetOrDelete }
  match setOrDeleteSeq with
  | some seq => .ok (some seq, scans.put key document)
  | none =>
    let scan := do
      let (found, indexes) ← scanOps readPath nonRecursive ⟨.empty, .empty⟩
        (rowOps (s.selectPatchConflicts doc afterSeq exclude))
      match found with
      | some seq => .ok (some seq, scans.put key document)
      | none => .ok (none, scans.put key { document with patches := some (afterSeq, indexes) })
    match document.patches with
    | some (basis, indexes) =>
      if basis ≤ afterSeq then
        .ok ((newestPatchConflict indexes readPath nonRecursive).filter (afterSeq < ·),
          scans.put key document)
      else scan
    | none => scan

end Store

/-- The read's path is one a patch operation touches, for the read's kind. -/
def opTouchesRead (op : PatchOp) (leaves : List ValuePath) (readPath : ValuePath)
    (nonRecursive : Bool) : Bool :=
  if nonRecursive then (touchedPathsForPatch op leaves).any (isPrefixPath · readPath)
  else leaves.any (pathsOverlap · readPath)

/-- The operation's paths parse, and the read is on none of them. -/
def OpClear (op : PatchOp) (readPath : ValuePath) (nonRecursive : Bool) : Prop :=
  ∃ leaves, touchedLeafPathsForPatch op = .ok leaves ∧
    opTouchesRead op leaves readPath nonRecursive = false

namespace Store

/-- No row after the basis conflicts with the read: each is a patch of which no
operation touches the read's path. -/
def ConflictFree (s : Store) (doc : DocInstance) (afterSeq : Nat) (readPath : ValuePath)
    (nonRecursive : Bool) (exclude : Option ConflictExclusion) : Prop :=
  ∀ row ∈ s.rowsOf doc, afterSeq < row.seq → s.notExcluded exclude row = true →
    row.data.isPatch = true ∧ ∀ op ∈ storedPatchList row, OpClear op readPath nonRecursive

end Store

/-- Every touched path of the operation is in the index for its kind of read. -/
def PatchIndexes.CoversOp (indexes : PatchIndexes) (op : PatchOp) (seq : Nat) : Prop :=
  ∃ leaves, touchedLeafPathsForPatch op = .ok leaves ∧
    (∀ p ∈ leaves, indexes.leaves.Covers p seq) ∧
    ∀ p ∈ touchedPathsForPatch op leaves, indexes.shapes.Covers p seq

open TouchedPathIndex

theorem covers_foldl_add {index : TouchedPathIndex} {p : ValuePath} {seq : Nat}
    (paths : List ValuePath) (seq' : Nat) (h : index.Covers p seq) :
    (paths.foldl (·.add · seq') index).Covers p seq := by
  induction paths generalizing index with
  | nil => exact h
  | cons q paths ih => exact ih (h.add q seq')

theorem covers_foldl_add_mem {index : TouchedPathIndex} {p : ValuePath} {paths : List ValuePath}
    (seq : Nat) (h : p ∈ paths) : (paths.foldl (·.add · seq) index).Covers p seq := by
  induction paths generalizing index with
  | nil => cases h
  | cons q paths ih =>
    rcases List.mem_cons.1 h with rfl | h
    · exact covers_foldl_add paths seq (covers_add_self index p seq)
    · exact ih h

theorem PatchIndexes.coversOp_addOp (indexes : PatchIndexes) {op : PatchOp}
    {leaves : List ValuePath} (seq : Nat) (h : touchedLeafPathsForPatch op = .ok leaves) :
    (indexes.addOp op leaves seq).CoversOp op seq :=
  ⟨leaves, h, fun _ hp => covers_foldl_add_mem seq hp, fun _ hp => covers_foldl_add_mem seq hp⟩

theorem PatchIndexes.CoversOp.addOp {indexes : PatchIndexes} {op : PatchOp} {seq : Nat}
    (h : indexes.CoversOp op seq) (op' : PatchOp) (leaves' : List ValuePath) (seq' : Nat) :
    (indexes.addOp op' leaves' seq').CoversOp op seq := by
  obtain ⟨leaves, hl, hleaf, hshape⟩ := h
  exact ⟨leaves, hl, fun p hp => covers_foldl_add leaves' seq' (hleaf p hp),
    fun p hp => covers_foldl_add _ seq' (hshape p hp)⟩

/-- An operation in the index that touches the read is found, at its seq or later. -/
theorem PatchIndexes.CoversOp.found {indexes : PatchIndexes} {op : PatchOp} {seq : Nat}
    (h : indexes.CoversOp op seq) {readPath : ValuePath} {nonRecursive : Bool}
    (hnot : ¬ OpClear op readPath nonRecursive) :
    ∃ n, newestPatchConflict indexes readPath nonRecursive = some n ∧ seq ≤ n := by
  obtain ⟨leaves, hl, hleaf, hshape⟩ := h
  have htouch : opTouchesRead op leaves readPath nonRecursive = true := by
    by_contra hc
    exact hnot ⟨leaves, hl, by simpa using hc⟩
  cases nonRecursive with
  | true =>
    obtain ⟨p, hp, hpre⟩ := List.any_eq_true.1 (show List.any _ _ = true from htouch)
    exact (hshape p hp).newestPrefixOf hpre
  | false =>
    obtain ⟨p, hp, hov⟩ := List.any_eq_true.1 (show List.any _ _ = true from htouch)
    exact (hleaf p hp).newestOverlapping hov

/-- A scan that finds nothing has read and indexed every operation, none of which
touches the read. -/
theorem scanOps_none {readPath : ValuePath} {nonRecursive : Bool} {ops : List (Nat × PatchOp)} :
    ∀ {indexes indexes' : PatchIndexes},
      scanOps readPath nonRecursive indexes ops = .ok (none, indexes') →
      (∀ e ∈ ops, OpClear e.2 readPath nonRecursive ∧ indexes'.CoversOp e.2 e.1) ∧
        ∀ op seq, indexes.CoversOp op seq → indexes'.CoversOp op seq := by
  induction ops with
  | nil =>
    intro indexes indexes' h
    cases h
    exact ⟨by simp, fun _ _ h => h⟩
  | cons e ops ih =>
    intro indexes indexes' h
    obtain ⟨seq, op⟩ := e
    obtain ⟨leaves, hleaves, h⟩ := Except.bind_ok_iff.1 h
    rw [liftPatch_ok_iff] at hleaves
    dsimp only at h
    split at h
    · cases h
    · rename_i hnone
      obtain ⟨hops, hkeep⟩ := ih h
      have hcov := indexes.coversOp_addOp seq hleaves
      refine ⟨fun e he => ?_, fun op' seq' h' => hkeep _ _ (h'.addOp op leaves seq)⟩
      rcases List.mem_cons.1 he with rfl | he
      · refine ⟨?_, hkeep _ _ hcov⟩
        by_contra hnot
        obtain ⟨n, hn, _⟩ := hcov.found hnot
        rw [hn] at hnone
        cases hnone
      · exact hops e he

namespace Store

variable {s : Store}

/-- What the scans remember of each document and exclusion holds of the store. -/
def ScansSound (s : Store) (scans : ConflictScans) : Prop :=
  ∀ doc exclude,
    (∀ basis, (basis, none) ∈ (scans.get (conflictScanKey doc exclude)).newestSetOrDelete →
      s.selectSetDeleteConflict doc basis exclude = none) ∧
    ∀ basis indexes, (scans.get (conflictScanKey doc exclude)).patches = some (basis, indexes) →
      ∀ row ∈ s.selectPatchConflicts doc basis exclude, ∀ op ∈ storedPatchList row,
        indexes.CoversOp op row.seq

theorem scansSound_nil : s.ScansSound [] := by
  intro doc exclude
  constructor <;> simp [ConflictScans.get]

/-- The statements test membership in the layers, which the key keeps. -/
theorem notExcluded_of_key_eq {doc doc' : DocInstance} {e e' : Option ConflictExclusion}
    (h : conflictScanKey doc e = conflictScanKey doc' e') (row : RevisionRow) :
    doc = doc' ∧ s.notExcluded e row = s.notExcluded e' row := by
  simp only [conflictScanKey, ScanKey.mk.injEq] at h
  obtain ⟨hdoc, he⟩ := h
  refine ⟨hdoc, ?_⟩
  cases e with
  | none => cases e' with
    | none => rfl
    | some e' => cases he
  | some e => cases e' with
    | none => cases he
    | some e' =>
      simp only [Option.map_some, Option.some.injEq, Prod.mk.injEq] at he
      obtain ⟨hs, hl⟩ := he
      have hmem : ∀ n : Int, n ∈ e.namedLocalSeqs ↔ n ∈ e'.namedLocalSeqs := by
        intro n
        have h1 := List.mem_insertionSort (· ≤ ·) (x := n) (l := e.namedLocalSeqs.dedup)
        have h2 := List.mem_insertionSort (· ≤ ·) (x := n) (l := e'.namedLocalSeqs.dedup)
        rw [hl] at h1
        rw [← List.mem_dedup, ← h1, h2, List.mem_dedup]
      simp only [notExcluded]
      cases s.selectCommit row.commitSeq with
      | none => rfl
      | some c =>
        dsimp only
        rw [hs, Bool.eq_iff_iff]
        simp [hmem]

theorem selectSetDeleteConflict_eq_none {doc : DocInstance} {afterSeq : Nat}
    {exclude : Option ConflictExclusion}
    (h : s.selectSetDeleteConflict doc afterSeq exclude = none) {row : RevisionRow}
    (hrow : row ∈ s.rowsOf doc) (hseq : afterSeq < row.seq)
    (hex : s.notExcluded exclude row = true) : row.data.isPatch = true := by
  rw [selectSetDeleteConflict, Option.map_eq_none_iff, Query.newest_eq_none_iff,
    List.filter_eq_nil_iff] at h
  simpa [hseq, hex] using h row hrow

theorem mem_selectPatchConflicts {doc : DocInstance} {afterSeq : Nat}
    {exclude : Option ConflictExclusion} {row : RevisionRow} :
    row ∈ s.selectPatchConflicts doc afterSeq exclude ↔
      row ∈ s.rowsOf doc ∧ afterSeq < row.seq ∧ row.data.isPatch = true ∧
        s.notExcluded exclude row = true := by
  rw [selectPatchConflicts, Query.descending, List.mem_reverse, Query.ascending,
    List.mem_insertionSort, List.mem_filter]
  simp [and_assoc]

theorem mem_rowOps {rows : List RevisionRow} {row : RevisionRow} {op : PatchOp}
    (hrow : row ∈ rows) (hop : op ∈ storedPatchList row) : (row.seq, op) ∈ rowOps rows :=
  List.mem_flatMap.2 ⟨row, hrow, List.mem_map.2 ⟨op, hop, rfl⟩⟩

section FindConflict

variable {scans scans' : ConflictScans} {doc : DocInstance} {afterSeq : Nat} {readPath : ValuePath}
  {nonRecursive : Bool} {exclude : Option ConflictExclusion}

/-- Scans stay sound when one document's entry is replaced by a sound one. -/
theorem ScansSound.put (hs : s.ScansSound scans) (d : DocumentConflicts)
    (hset : ∀ basis, (basis, none) ∈ d.newestSetOrDelete →
      s.selectSetDeleteConflict doc basis exclude = none)
    (hpatch : ∀ basis indexes, d.patches = some (basis, indexes) →
      ∀ row ∈ s.selectPatchConflicts doc basis exclude, ∀ op ∈ storedPatchList row,
        indexes.CoversOp op row.seq) :
    s.ScansSound (scans.put (conflictScanKey doc exclude) d) := by
  intro doc' exclude'
  by_cases hkey : conflictScanKey doc' exclude' = conflictScanKey doc exclude
  · have hsame : ∀ row, s.notExcluded exclude' row = s.notExcluded exclude row := fun row =>
      (notExcluded_of_key_eq hkey row).2
    have hdoc : doc' = doc := congrArg ScanKey.doc hkey
    subst hdoc
    rw [hkey, ConflictScans.get_put_self]
    simp only [selectSetDeleteConflict, selectPatchConflicts, hsame]
    exact ⟨hset, hpatch⟩
  · rw [ConflictScans.get_put_other _ _ hkey]
    exact hs doc' exclude'

/-- What the newest `set` or `delete` after a basis is, as far as it is remembered. -/
theorem newestSetOrDelete_none {document : DocumentConflicts}
    (hset : ∀ basis, (basis, none) ∈ document.newestSetOrDelete →
      s.selectSetDeleteConflict doc basis exclude = none)
    (h : (match document.newestSetOrDelete.find? fun e => e.1 = afterSeq with
      | some known => known.2
      | none => s.selectSetDeleteConflict doc afterSeq exclude) = none) :
    s.selectSetDeleteConflict doc afterSeq exclude = none := by
  split at h
  · rename_i known hknown
    obtain ⟨hk, hmem⟩ : known.1 = afterSeq ∧ known ∈ document.newestSetOrDelete :=
      ⟨by simpa using List.find?_some hknown, List.mem_of_find?_eq_some hknown⟩
    refine hset afterSeq ?_
    rw [← hk, ← h]; exact hmem
  · exact h

/-- No operation of a patch row after the basis touches the read, and no other row is
after it. -/
theorem conflictFree_of_ops (hsd : s.selectSetDeleteConflict doc afterSeq exclude = none)
    (hops : ∀ row ∈ s.selectPatchConflicts doc afterSeq exclude,
      ∀ op ∈ storedPatchList row, OpClear op readPath nonRecursive) :
    s.ConflictFree doc afterSeq readPath nonRecursive exclude := by
  intro row hrow hseq hex
  have hp := selectSetDeleteConflict_eq_none hsd hrow hseq hex
  exact ⟨hp, hops row (mem_selectPatchConflicts.2 ⟨hrow, hseq, hp, hex⟩)⟩

/-- What a scan learned is sound, and one that answers `none` has missed no conflict. -/
theorem findConflictSeq_ok {found : Option Nat} (hs : s.ScansSound scans)
    (h : s.findConflictSeq scans doc afterSeq readPath nonRecursive exclude =
      .ok (found, scans')) :
    s.ScansSound scans' ∧
      (found = none → s.ConflictFree doc afterSeq readPath nonRecursive exclude) := by
  obtain ⟨hsset, hspatch⟩ := hs doc exclude
  unfold findConflictSeq at h
  dsimp only at h
  generalize scans.get (conflictScanKey doc exclude) = document at h hsset hspatch
  have hknown : _ → s.selectSetDeleteConflict doc afterSeq exclude = none :=
    newestSetOrDelete_none hsset
  generalize (match document.newestSetOrDelete.find? fun e => e.1 = afterSeq with
    | some known => known.2
    | none => s.selectSetDeleteConflict doc afterSeq exclude) = setOrDeleteSeq at h hknown
  have hset' : ∀ basis, (basis, none) ∈ (afterSeq, setOrDeleteSeq) :: document.newestSetOrDelete →
      s.selectSetDeleteConflict doc basis exclude = none := by
    intro basis hb
    rcases List.mem_cons.1 hb with he | hb
    · cases he; exact hknown rfl
    · exact hsset basis hb
  cases setOrDeleteSeq with
  | some seq =>
    cases h
    exact ⟨hs.put _ hset' fun b i hb => hspatch b i hb, nofun⟩
  | none =>
    have hsd := hknown rfl
    have hscan : ∀ {res : Option Nat × PatchIndexes},
        scanOps readPath nonRecursive ⟨.empty, .empty⟩
          (rowOps (s.selectPatchConflicts doc afterSeq exclude)) = .ok res →
        (match res.1 with
          | some seq => (Except.ok (some seq, scans.put (conflictScanKey doc exclude)
              { document with newestSetOrDelete := (afterSeq, none) :: document.newestSetOrDelete })
              : Except EngineError (Option Nat × ConflictScans))
          | none => .ok (none, scans.put (conflictScanKey doc exclude)
              { newestSetOrDelete := (afterSeq, none) :: document.newestSetOrDelete,
                patches := some (afterSeq, res.2) })) = .ok (found, scans') →
        s.ScansSound scans' ∧
          (found = none → s.ConflictFree doc afterSeq readPath nonRecursive exclude) := by
      rintro ⟨scanned, indexes⟩ hops hres
      cases scanned with
      | some _ =>
        cases hres
        exact ⟨hs.put _ hset' fun b i hb => hspatch b i hb, nofun⟩
      | none =>
        cases hres
        obtain ⟨hall, _⟩ := scanOps_none hops
        refine ⟨hs.put _ hset' ?_, fun _ => conflictFree_of_ops hsd fun row hrow op hop =>
          (hall _ (mem_rowOps hrow hop)).1⟩
        rintro basis indexes' hb row hrow op hop
        cases hb
        exact (hall _ (mem_rowOps hrow hop)).2
    dsimp only at h
    split at h
    · rename_i basis indexes hpatches
      split at h
      · rename_i hle
        obtain ⟨hfilter, rfl⟩ := Prod.mk.inj (Except.ok.inj h)
        refine ⟨hs.put _ hset' fun b i hb => hspatch b i hb, fun hnone =>
          conflictFree_of_ops hsd ?_⟩
        intro row hrow op hop
        obtain ⟨hr, hseq, hp, hex⟩ := mem_selectPatchConflicts.1 hrow
        by_contra hnot
        have hcov := hspatch basis indexes hpatches row
          (mem_selectPatchConflicts.2 ⟨hr, by omega, hp, hex⟩) op hop
        obtain ⟨n, hn, hle'⟩ := hcov.found hnot
        rw [hnone, hn, Option.filter_eq_none_iff] at hfilter
        simpa using hfilter n rfl (by simpa using Nat.lt_of_lt_of_le hseq hle')
      · obtain ⟨res, hops, h⟩ := Except.bind_ok_iff.1 h
        exact hscan hops h
    · obtain ⟨res, hops, h⟩ := Except.bind_ok_iff.1 h
      exact hscan hops h

end FindConflict

end Store
