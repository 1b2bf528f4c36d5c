import CommonFabric.FieldOrder
import CommonFabric.PatchOverlap
import CommonFabric.ReadCoherence

/-!
# The paths written since a seq

`selectWritePathsSince` reports of each patch the path it names, and of a set or a delete the
root. A move takes its value from a second path, which is not reported; an operation that takes
a place among the elements of an array moves elements beside the path it names; and the first
patch on a branch of an inherited document drops what was inherited. Where each place that the
rows change has a reported path at or above it, every value that changes is reported.
-/

namespace PatchOp

open Patch

/-- Indicates whether an addition at the key changes a child of its container: in an array each
from the place of the new element on. -/
def insertChanges (c : FabricValue) (key k : JsString) : Bool :=
  match c with
  | .array slots => (arrayIndex? k).any fun i =>
      (if key = appendMarker then slots.length else (arrayIndex? key).getD 0) ≤ i && i ≤ slots.length
  | _ => k = key

/-- Indicates whether a removal at the key changes a child of its container. -/
def eraseChanges (c : FabricValue) (key k : JsString) : Bool :=
  match c with
  | .array slots => (arrayIndex? k).any fun i =>
      (arrayIndex? key).getD 0 ≤ i && i < slots.length
  | _ => k = key

/-- The container that an operation at the path finds, or creates. -/
def containerAt (doc : FabricValue) (path : ValuePath) : FabricValue :=
  (valueAt doc path.dropLast).getD (createMissingContainer (lastKey path))

/-- Indicates whether the place is a child, changed as given, of the path's container. -/
def changesChild (changed : FabricValue → JsString → JsString → Bool) (doc : FabricValue)
    (path place : ValuePath) : Bool :=
  if path = [] then place = []
  else place ≠ [] && place.dropLast = path.dropLast &&
    changed (containerAt doc path) (lastKey path) (lastKey place)

def addChanges : FabricValue → ValuePath → ValuePath → Bool := changesChild insertChanges

def removeChanges : FabricValue → ValuePath → ValuePath → Bool := changesChild eraseChanges

/-- Indicates whether the operation, applied to the document, changes what is at the place: at its
path, for a `move` also at its source, and in an array at each element that is moved along. -/
def changes (doc : FabricValue) (op : PatchOp) (place : ValuePath) : Bool :=
  match op with
  | .add path _ => (parsePointer path).toOption.any (addChanges doc · place)
  | .remove path => (parsePointer path).toOption.any (removeChanges doc · place)
  | .move source path =>
    (parsePointer source).toOption.any fun s => removeChanges doc s place ||
      (parsePointer path).toOption.any fun q =>
        (removeAtPath doc s).toOption.any (addChanges · q place)
  | op => (parsePointer op.path).toOption.any (· = place)

variable {changed : FabricValue → JsString → JsString → Bool} {doc : FabricValue} {path : ValuePath}

theorem changesChild_snoc {k : JsString} (hne : path ≠ []) :
    changesChild changed doc path (path.dropLast ++ [k]) =
      changed (containerAt doc path) (lastKey path) k := by
  simp [changesChild, hne, lastKey]

/-- Where only the child at the key changes, only the path does. -/
theorem changesChild_path (hkey : ∀ k, changed (containerAt doc path) (lastKey path) k = true →
      k = lastKey path) {place : ValuePath} (h : changesChild changed doc path place = true) :
    place = path := by
  unfold changesChild at h
  split at h
  · rename_i hpath
    rw [hpath]
    simpa using h
  · rename_i hpath
    simp only [Bool.and_eq_true, decide_eq_true_eq, ne_eq] at h
    rw [path_split h.1.1, h.1.2, hkey _ h.2, ← path_split hpath]

/-- An addition to an array puts the value at the place of the key. -/
theorem addIn_array {slots : Slots} {c' value : FabricValue}
    (h : addIn path value (.array slots) = .ok c') :
    ∃ j, (if lastKey path = appendMarker then slots.length
        else (arrayIndex? (lastKey path)).getD 0) = j ∧ j ≤ slots.length ∧
      c' = .array (slots.take j ++ some value :: slots.drop j) := by
  simp only [addIn] at h
  split at h
  · rename_i hmarker
    cases h
    exact ⟨slots.length, if_pos hmarker, le_refl _, by simp⟩
  · rename_i hmarker
    obtain ⟨j, hj, h⟩ := Except.bind_ok_iff.1 h
    obtain ⟨hindex, hle⟩ := parseArrayInsertIndex_ok hj
    cases h
    exact ⟨j, by rw [if_neg hmarker, hindex, Option.getD_some], hle, rfl⟩

theorem insertChanges_of_not {c c' value : FabricValue} {k : JsString}
    (h : addIn path value c = .ok c') (hk : insertChanges c (lastKey path) k = false)
    (hne : k ≠ lastKey path) : child c' k = child c k := by
  cases c with
  | record fields =>
    rw [addIn_child h (.inl ⟨fields, rfl⟩), if_neg hne]
  | array slots =>
    obtain ⟨j, hplace, hle, rfl⟩ := addIn_array h
    cases hi : arrayIndex? k with
    | none => simp [child, hi]
    | some i =>
      simp only [insertChanges, hi, hplace, Option.any_some, Bool.and_eq_false_iff,
        decide_eq_false_iff_not, not_le] at hk
      rw [child_array hi, child_array hi]
      rcases hk with hk | hk
      · rw [List.getElem?_append_left (by simp; omega), List.getElem?_take_of_lt hk]
      · rw [List.getElem?_eq_none (by simp; omega), List.getElem?_eq_none (by omega)]
  | _ => cases h

theorem eraseChanges_of_not {c c' : FabricValue} {k : JsString} (h : removeIn path c = .ok c')
    (hk : eraseChanges c (lastKey path) k = false) (hne : k ≠ lastKey path) :
    child c' k = child c k := by
  cases c with
  | record fields => rw [removeIn_child h, if_neg hne]
  | array slots =>
    obtain ⟨j, hj, h⟩ := Except.bind_ok_iff.1 h
    obtain ⟨hindex, -⟩ := requireExistingArrayIndex_ok hj
    cases h
    cases hi : arrayIndex? k with
    | none => simp [child, hi]
    | some i =>
      rw [child_array hi, child_array hi]
      simp only [eraseChanges, hi, hindex, Option.any_some, Option.getD_some,
        Bool.and_eq_false_iff, decide_eq_false_iff_not, not_le, not_lt] at hk
      rcases hk with hk | hk
      · simp [List.getElem?_eraseIdx_of_lt hk]
      · have hlen : (slots.eraseIdx j).length ≤ i := by
          exact (List.length_eraseIdx_le slots j).trans hk
        rw [List.getElem?_eq_none hlen, List.getElem?_eq_none hk]
  | _ => cases h

end PatchOp

open Patch PatchOp

variable {op : PatchOp} {ops : List PatchOp} {root root' : FabricValue} {source path p : ValuePath}

/-- The container that is edited is the one found, or created for the last key. -/
theorem containerAt_edited {create : Option JsString} {c : FabricValue}
    (hc : valueAt root path.dropLast = some c ∨ ∃ nextKey, create = some nextKey ∧
      valueAt root path.dropLast = none ∧ c = createMissingContainer nextKey)
    (hcreate : ∀ nextKey, create = some nextKey → nextKey = lastKey path) :
    containerAt root path = c := by
  unfold containerAt
  rcases hc with hthere | ⟨nextKey, hkey, hnone, rfl⟩
  · rw [hthere]; rfl
  · rw [hnone, hcreate nextKey hkey]; rfl

/-- What is beside the path and beside every changed child of its container is left alone. -/
theorem beside_child {changed : FabricValue → JsString → JsString → Bool} {k : JsString}
    (hne : path ≠ []) (hk : ∃ r, p = path.dropLast ++ k :: r)
    (hplaces : ∀ place, changesChild changed root path place = true → pathsOverlap place p = false) :
    changed (containerAt root path) (lastKey path) k = false := by
  by_contra hchanged
  obtain ⟨r, rfl⟩ := hk
  have hover := hplaces (path.dropLast ++ [k])
    (by rw [changesChild_snoc hne]; simpa using hchanged)
  rw [List.append_cons path.dropLast k r, pathsOverlap_append] at hover
  cases hover

theorem addChanges_frame {value : FabricValue} (h : addAtPath root path value = .ok root')
    (hpath : pathsOverlap path p = false)
    (hplaces : ∀ place, addChanges root path place = true → pathsOverlap place p = false) :
    valueAt root' p = valueAt root p := by
  have hne := overlap_ne_nil hpath
  simp only [addAtPath, hne, if_false] at h
  obtain ⟨-, h⟩ := Except.check_ok_iff.1 h
  refine editParent_frame hne h hpath fun c c' hf hc k hk hkne => ?_
  have hnot := beside_child hne hk hplaces
  rw [containerAt_edited hc fun _ hkey => (Option.some.inj hkey).symm] at hnot
  exact insertChanges_of_not hf hnot hkne

theorem removeChanges_frame (h : removeAtPath root path = .ok root')
    (hpath : pathsOverlap path p = false)
    (hplaces : ∀ place, removeChanges root path place = true → pathsOverlap place p = false) :
    valueAt root' p = valueAt root p := by
  have hne := overlap_ne_nil hpath
  simp only [removeAtPath, hne, if_false] at h
  refine editParent_frame hne h hpath fun c c' hf hc k hk hkne => ?_
  have hnot := beside_child hne hk hplaces
  rw [containerAt_edited hc fun _ hkey => by cases hkey] at hnot
  exact eraseChanges_of_not hf hnot hkne

/-- What is removed is changed. -/
theorem removeChanges_self (h : removeAtPath root path = .ok root') :
    removeChanges root path path = true := by
  have hne : path ≠ [] := by
    rintro rfl
    cases h
  simp only [removeAtPath, hne, if_false] at h
  obtain ⟨c, c', hf, hc, -⟩ := editSpine_children h
  have hcontainer : containerAt root path = c :=
    containerAt_edited hc fun _ hkey => by cases hkey
  have hchild : eraseChanges c (lastKey path) (lastKey path) = true := by
    cases c with
    | array slots =>
      obtain ⟨j, hj, -⟩ := Except.bind_ok_iff.1 hf
      obtain ⟨hindex, hslot⟩ := requireExistingArrayIndex_ok hj
      have hlt : j < slots.length := by
        by_contra hge
        rw [List.getElem?_eq_none (by omega)] at hslot
        cases hslot
      simp [eraseChanges, hindex, hlt]
    | _ => simp [eraseChanges]
  simp [removeChanges, changesChild, hne, hcontainer, hchild]

/-- An operation changes nothing beside its path and the places it changes. -/
theorem applyOp_changes_frame (h : applyOp root op = .ok root')
    (hpath : ∀ q, parsePointer op.path = .ok q → pathsOverlap q p = false)
    (hplaces : ∀ place, op.changes root place = true → pathsOverlap place p = false) :
    valueAt root' p = valueAt root p := by
  cases op with
  | add path value =>
    obtain ⟨q, hq, h⟩ := Except.bind_ok_iff.1 h
    refine addChanges_frame h (hpath q hq) fun place hplace => hplaces place ?_
    simpa [changes, hq, Except.toOption] using hplace
  | remove path =>
    obtain ⟨q, hq, h⟩ := Except.bind_ok_iff.1 h
    refine removeChanges_frame h (hpath q hq) fun place hplace => hplaces place ?_
    simpa [changes, hq, Except.toOption] using hplace
  | move source path =>
    obtain ⟨s, hs, h⟩ := Except.bind_ok_iff.1 h
    obtain ⟨q, hq, h⟩ := Except.bind_ok_iff.1 h
    unfold moveValue at h
    split at h
    · cases h
    · split at h
      · cases h
      · obtain ⟨extracted, -, h⟩ := Except.bind_ok_iff.1 h
        obtain ⟨removed, hremove, h⟩ := Except.bind_ok_iff.1 h
        have hplaces' {place : ValuePath}
            (hplace : removeChanges root s place = true ∨ addChanges removed q place = true) :
            pathsOverlap place p = false :=
          hplaces place (by simpa [changes, hs, hq, hremove, Except.toOption] using hplace)
        rw [addChanges_frame h (hpath q hq) fun place hplace => hplaces' (.inr hplace)]
        exact removeChanges_frame hremove (hplaces' (.inl (removeChanges_self hremove)))
          fun place hplace => hplaces' (.inl hplace)
  | _ =>
    obtain ⟨leaves, hleaves⟩ := applyOp_leaves h
    refine applyOp_frame h hleaves (fun q hq => ?_)
      (by simp [shiftsElements, indexesExistingArray, marksAppend, isStructural])
    obtain ⟨pointer, hmem, hparse⟩ := List.mapM_mem_ok hleaves hq
    rw [pointers, List.mem_singleton] at hmem
    exact hpath q (hmem ▸ hparse)

namespace Store

structure WritePathsOptions where
  branch : Option BranchName
  id : EntityId
  scopeKey : ScopeKey
  sinceSeq : Nat

def WritePathsOptions.doc (o : WritePathsOptions) : DocInstance :=
  ⟨o.branch.getD DEFAULT_BRANCH, o.id, o.scopeKey⟩

/-- The paths one row reports. -/
def writePathsOf (row : RevisionRow) : Except PatchError (List ValuePath) :=
  match row.data with
  | .patch patches => patches.mapM fun patch => parsePointer patch.path
  | _ => .ok [[]]

def selectWritePathsSince (s : Store) (o : WritePathsOptions) : Except PatchError (List ValuePath) := do
  let rows := Query.ascending RevisionRow.position
    ((s.rowsOf o.doc).filter (o.sinceSeq < ·.seq))
  let paths ← rows.mapM writePathsOf
  .ok paths.flatten

end Store

/-- Among the rows is a set or a delete, or a patch whose `path` is at or above the place. -/
def reportsAbove (rows : List RevisionRow) (place : ValuePath) : Bool :=
  rows.any fun row => !row.data.isPatch || (storedPatchList row).any fun patch =>
    match parsePointer patch.path with
    | .ok path => isPrefixPath path place
    | .error _ => false

/-- The rows report above each place that the operations change, each looked at in the document
it is applied to. -/
def PatchesCovered (rows : List RevisionRow) : FabricValue → List PatchOp → Prop
  | _, [] => True
  | v, op :: rest =>
    (∀ place, op.changes v place = true → reportsAbove rows place = true) ∧
      ∀ v', applyOp v op = .ok v' → PatchesCovered rows v' rest

/-- The same of each place that stored rows change, from the document they are applied to. -/
def ChangesCovered (rows : List RevisionRow) :
    Except EngineError (Option EntityDocument) → List RevisionRow → Prop
  | _, [] => True
  | state, row :: rest =>
    (∀ d, state = .ok d →
      PatchesCovered rows (d.getD emptyEntityDocument).toValue (storedPatchList row)) ∧
    ChangesCovered rows (applyRow state row) rest

namespace Store

/-- Every change of an instance since a seq is one that the paths written since report. -/
structure WritesCovered (s : Store) (doc : DocInstance) (seq : Nat) : Prop where
  parsed : ∀ row ∈ s.rowsAfter doc seq, ∀ patch ∈ storedPatchList row,
    ∃ path, parsePointer patch.path = .ok path
  inherited : s.rowsAfter doc seq ≠ [] → s.rowsThrough doc seq = [] →
    ∀ d, s.documentAt doc (some seq) = .ok (some d) →
      ∀ field ∈ d.fields, reportsAbove (s.rowsAfter doc seq) [field.1] = true
  covered : ∀ before, s.documentAt doc (some seq) = .ok before →
    ChangesCovered (s.rowsAfter doc seq) (.ok (s.replayedOn doc seq before)) (s.rowsAfter doc seq)
  created : s.documentAt doc (some seq) = .ok none → s.rowsAfter doc seq ≠ [] →
    ∃ row ∈ s.rowsAfter doc seq, row.data.isPatch = true → storedPatchList row ≠ []

/-- The paths returned for an instance contain one above or below the path. -/
def Reported (s : Store) (doc : DocInstance) (seq : Nat) (p : ValuePath) : Prop :=
  ∃ paths, s.selectWritePathsSince ⟨some doc.branch, doc.id, doc.scopeKey, seq⟩ = .ok paths ∧
    ∃ q ∈ paths, pathsOverlap q p = true

end Store

/-- The value at a path of a document that may be absent. -/
def valueOf (document : Option EntityDocument) (p : ValuePath) : Option FabricValue :=
  document.bind fun d => valueAt d.toValue p

namespace Store

variable {opens : Engine → Prop} {s : Store} {doc : DocInstance} {seq : Nat}
  {rows : List RevisionRow}

theorem overlap_of_above {q q' p : ValuePath} (h : isPrefixPath q q' = true)
    (hp : pathsOverlap q' p = true) : pathsOverlap q p = true := by
  obtain ⟨r, rfl⟩ := (isPrefixPath_iff _ _).1 h
  by_contra hnot
  obtain ⟨stem, k, l, r', t, hq, hpath, hne⟩ := diverge (Bool.not_eq_true _ ▸ hnot)
  rw [hq, hpath, List.append_assoc, pathsOverlap_append_left, List.cons_append,
    pathsOverlap_cons_ne hne] at hp
  cases hp

theorem selectWritePathsSince_eq (hasc : s.RowsAscending) :
    s.selectWritePathsSince ⟨some doc.branch, doc.id, doc.scopeKey, seq⟩ =
      ((s.rowsAfter doc seq).mapM writePathsOf >>= fun paths => .ok paths.flatten) := by
  have hrows : Query.ascending RevisionRow.position (s.rowsAfter doc seq) = s.rowsAfter doc seq :=
    Query.ascending_eq ((hasc doc).filter _)
  rw [rowsAfter] at hrows
  simp only [selectWritePathsSince, WritePathsOptions.doc, Option.getD_some, hrows]
  rfl

/-- Rows whose paths parse are reported: of each write, its path. -/
theorem writePaths_ok (hasc : s.RowsAscending)
    (hparsed : ∀ row ∈ s.rowsAfter doc seq, ∀ patch ∈ storedPatchList row,
      ∃ path, parsePointer patch.path = .ok path) :
    ∃ paths, s.selectWritePathsSince ⟨some doc.branch, doc.id, doc.scopeKey, seq⟩ = .ok paths ∧
      ∀ row ∈ s.rowsAfter doc seq, (row.data.isPatch = false → [] ∈ paths) ∧
        ∀ patch ∈ storedPatchList row, ∀ path, parsePointer patch.path = .ok path →
          path ∈ paths := by
  have hone : ∀ row ∈ s.rowsAfter doc seq, ∃ paths, writePathsOf row = .ok paths := by
    intro row hrow
    have hpatches := hparsed row hrow
    unfold writePathsOf
    cases hdata : row.data with
    | patch patches =>
      rw [storedPatchList, hdata] at hpatches
      exact List.mapM_ok hpatches
    | set d => exact ⟨_, rfl⟩
    | delete => exact ⟨_, rfl⟩
  obtain ⟨paths, hpaths⟩ := List.mapM_ok hone
  refine ⟨paths.flatten, by rw [selectWritePathsSince_eq hasc, hpaths]; rfl, ?_⟩
  intro row hrow
  obtain ⟨rowPaths, hrowPaths⟩ := hone row hrow
  have hmem := List.mapM_ok_mem hpaths hrow hrowPaths
  constructor
  · intro hbase
    apply List.mem_flatten.2
    refine ⟨rowPaths, hmem, ?_⟩
    unfold writePathsOf at hrowPaths
    cases hdata : row.data with
    | patch patches => rw [hdata] at hbase; cases hbase
    | set d => rw [hdata] at hrowPaths; cases hrowPaths; exact List.mem_singleton_self _
    | delete => rw [hdata] at hrowPaths; cases hrowPaths; exact List.mem_singleton_self _
  · intro patch hpatch path hpath
    apply List.mem_flatten.2
    refine ⟨rowPaths, hmem, ?_⟩
    unfold writePathsOf at hrowPaths
    unfold storedPatchList at hpatch
    cases hdata : row.data with
    | patch patches =>
      rw [hdata] at hrowPaths hpatch
      exact List.mapM_ok_mem hrowPaths hpatch hpath
    | set d => rw [hdata] at hpatch; cases hpatch
    | delete => rw [hdata] at hpatch; cases hpatch

/-- No row reports above a place that overlaps an unreported path. -/
theorem not_reportsAbove {paths : List ValuePath} {p : ValuePath}
    (hrows : ∀ row ∈ rows, (row.data.isPatch = false → [] ∈ paths) ∧
      ∀ patch ∈ storedPatchList row, ∀ path, parsePointer patch.path = .ok path → path ∈ paths)
    (hnone : ∀ q ∈ paths, pathsOverlap q p = false) {place : ValuePath}
    (habove : reportsAbove rows place = true) : pathsOverlap place p = false := by
  obtain ⟨row, hrow, hreports⟩ := List.any_eq_true.1 habove
  obtain ⟨hbase, hpatches⟩ := hrows row hrow
  by_contra hover
  cases hdata : row.data.isPatch with
  | false =>
    have hroot := hnone [] (hbase hdata)
    rw [pathsOverlap_nil] at hroot
    cases hroot
  | true =>
    rw [hdata, Bool.not_true, Bool.false_or] at hreports
    obtain ⟨patch, hpatch, hprefix⟩ := List.any_eq_true.1 hreports
    cases hparse : parsePointer patch.path with
    | error _ => rw [hparse] at hprefix; cases hprefix
    | ok path =>
      rw [hparse] at hprefix
      have hdisjoint := hnone path (hpatches patch hpatch path hparse)
      rw [overlap_of_above hprefix (by simpa using hover)] at hdisjoint
      cases hdisjoint

/-- Patches whose paths and changed places lie beside a path leave its value. -/
theorem patchesCovered_frame {p : ValuePath}
    (hbeside : ∀ place, reportsAbove rows place = true → pathsOverlap place p = false)
    {ops : List PatchOp} (hpaths : ∀ op ∈ ops, ∀ q, parsePointer op.path = .ok q →
      pathsOverlap q p = false) :
    ∀ {v v' : FabricValue}, applyPatch v ops = .ok v' → PatchesCovered rows v ops →
      valueAt v' p = valueAt v p := by
  induction ops with
  | nil => intro v v' h _; cases h; rfl
  | cons op ops ih =>
    intro v v' h hcovered
    obtain ⟨next, hstep, hrest⟩ := List.foldlM_cons_ok.1 h
    rw [ih (fun op' h' => hpaths op' (List.mem_cons_of_mem _ h')) hrest (hcovered.2 next hstep)]
    exact applyOp_changes_frame hstep (hpaths op List.mem_cons_self)
      fun place hplace => hbeside place (hcovered.1 place hplace)

/-- Covered patch rows leave the value at an unreported path. -/
theorem changesCovered_frame {p : ValuePath}
    (hbeside : ∀ place, reportsAbove rows place = true → pathsOverlap place p = false)
    {rest : List RevisionRow} (hpatches : ∀ row ∈ rest, row.data.isPatch = true)
    (hpaths : ∀ row ∈ rest, ∀ op ∈ storedPatchList row, ∀ q, parsePointer op.path = .ok q →
      pathsOverlap q p = false) :
    ∀ {before after : Option EntityDocument},
      (rest.map storedPatchList).foldlM applyRevision before = .ok after →
      ChangesCovered rows (.ok before) rest →
      documentValueAt after p = documentValueAt before p := by
  induction rest with
  | nil => intro before after h _; cases h; rfl
  | cons row rest ih =>
    intro before after h hcovered
    rw [List.map_cons] at h
    obtain ⟨next, hstep, hrest⟩ := List.foldlM_cons_ok.1 h
    obtain ⟨hhere, hthere⟩ := hcovered
    rw [applyRow_patch (hpatches row List.mem_cons_self), hstep] at hthere
    rw [ih (fun row' h' => hpatches row' (List.mem_cons_of_mem _ h'))
      (fun row' h' => hpaths row' (List.mem_cons_of_mem _ h')) hrest hthere]
    obtain ⟨patched, rfl, hv⟩ := applyRevision_ok hstep
    exact patchesCovered_frame hbeside (hpaths row List.mem_cons_self) hv (hhere before rfl)

/-- What a branch inherits and drops with its first row is reported. -/
theorem WritesCovered.replayedOn_at (h : s.WritesCovered doc seq) {before : Option EntityDocument}
    (hbefore : s.documentAt doc (some seq) = .ok before) (hwritten : s.rowsAfter doc seq ≠ [])
    {key : JsString} {rest : ValuePath} (hbeside : ∀ place,
      reportsAbove (s.rowsAfter doc seq) place = true → pathsOverlap place (key :: rest) = false) :
    documentValueAt (s.replayedOn doc seq before) (key :: rest) =
      documentValueAt before (key :: rest) := by
  rw [replayedOn]
  split
  · rename_i hown
    cases before with
    | none => rfl
    | some d =>
      have hkey : key ∉ d.fields.map Prod.fst := by
        intro hmem
        obtain ⟨field, hfield, rfl⟩ := List.mem_map.1 hmem
        have hover := hbeside _ (h.inherited hwritten hown d hbefore field hfield)
        rw [show field.1 :: rest = [field.1] ++ rest from rfl, pathsOverlap_append] at hover
        cases hover
      have hnone : child (.record d.fields) key = none := Fields.get?_eq_none_iff.2 hkey
      exact (congrArg (·.bind fun c => valueAt c rest) hnone).symm
  · rfl

theorem valueOf_eq {document : Option EntityDocument} {p : ValuePath} (hp : p ≠ []) :
    valueOf document p = documentValueAt document p := by
  cases document with
  | some d => rfl
  | none =>
    cases p with
    | nil => exact absurd rfl hp
    | cons key rest => rfl

/-- Empty patches of a document leave it. -/
theorem foldlM_empty_patches {d : EntityDocument} {patches : List (List PatchOp)}
    (hempty : ∀ ops ∈ patches, ops = []) :
    patches.foldlM applyRevision (some d) = .ok (some d) := by
  induction patches with
  | nil => rfl
  | cons ops patches ih =>
    rw [hempty ops List.mem_cons_self, List.foldlM_cons]
    exact ih fun ops' h' => hempty ops' (List.mem_cons_of_mem _ h')

/-- Rows of empty patches leave the document, and one without members that is inherited. -/
theorem WritesCovered.of_empty (h : s.WritesCovered doc seq) {d : EntityDocument}
    (hbefore : s.documentAt doc (some seq) = .ok (some d)) (hwritten : s.rowsAfter doc seq ≠ [])
    (hpatches : ∀ row ∈ s.rowsAfter doc seq, row.data.isPatch = true)
    (hempty : ∀ row ∈ s.rowsAfter doc seq, storedPatchList row = []) :
    ((s.rowsAfter doc seq).map storedPatchList).foldlM applyRevision
      (s.replayedOn doc seq (some d)) = .ok (some d) := by
  have hlists : ∀ ops ∈ (s.rowsAfter doc seq).map storedPatchList, ops = [] := by
    intro ops hops
    obtain ⟨row, hrow, rfl⟩ := List.mem_map.1 hops
    exact hempty row hrow
  rw [replayedOn]
  split
  · rename_i hown
    obtain ⟨fields⟩ := d
    cases fields with
    | cons field fields =>
      obtain ⟨row, hrow, hreports⟩ := List.any_eq_true.1
        (h.inherited hwritten hown _ hbefore field List.mem_cons_self)
      simp [hpatches row hrow, hempty row hrow] at hreports
    | nil =>
      obtain ⟨ops, patches, hcons⟩ := List.exists_cons_of_ne_nil
        (mt List.map_eq_nil_iff.1 hwritten : (s.rowsAfter doc seq).map storedPatchList ≠ [])
      rw [hcons] at hlists ⊢
      rw [hlists ops List.mem_cons_self, List.foldlM_cons]
      exact foldlM_empty_patches fun ops' h' => hlists ops' (List.mem_cons_of_mem _ h')
  · exact foldlM_empty_patches hlists

/-- Where the writes since a seq are covered, a path at which the document differs between the
seq and the head is reported. -/
theorem write_paths_complete (hreach : Reachable opens s) (hcovered : s.WritesCovered doc seq)
    {before after : Option EntityDocument} (hbefore : s.documentAt doc (some seq) = .ok before)
    (hafter : s.documentAt doc none = .ok after) {p : ValuePath}
    (hdiffers : valueOf before p ≠ valueOf after p) : s.Reported doc seq p := by
  have hs := hreach.sound
  obtain ⟨paths, hpaths, hrows⟩ := writePaths_ok hs.ascending hcovered.parsed
  by_contra hunreported
  have hnone : ∀ q ∈ paths, pathsOverlap q p = false := by
    intro q hq
    by_contra hover
    exact hunreported ⟨paths, hpaths, q, hq, by simpa using hover⟩
  by_cases hwritten : s.rowsAfter doc seq = []
  · rw [documentAt_unwritten hs hwritten hbefore] at hafter
    cases hafter
    exact hdiffers rfl
  · have hpatches : ∀ row ∈ s.rowsAfter doc seq, row.data.isPatch = true := by
      intro row hrow
      by_contra hbase
      have hroot := hnone [] ((hrows row hrow).1 (by simpa using hbase))
      rw [pathsOverlap_nil] at hroot
      cases hroot
    rw [documentAt_written hs hwritten hbefore, map_entry_of_patches hpatches,
      ReplayLog.replay_changes] at hafter
    cases p with
    | cons key rest =>
      have hbeside : ∀ place, reportsAbove _ place = true → pathsOverlap place (key :: rest) = false :=
        fun _ => not_reportsAbove hrows hnone
      have hsame := changesCovered_frame hbeside hpatches
        (fun row hrow op hop q hq => hnone q ((hrows row hrow).2 op hop q hq)) hafter
        (hcovered.covered before hbefore)
      rw [hcovered.replayedOn_at hbefore hwritten hbeside] at hsame
      rw [valueOf_eq (List.cons_ne_nil _ _), valueOf_eq (List.cons_ne_nil _ _), hsame] at hdiffers
      exact hdiffers rfl
    | nil =>
      -- Every path is above the root or below it, so no patch names one.
      have hempty : ∀ row ∈ s.rowsAfter doc seq, storedPatchList row = [] := by
        intro row hrow
        rw [List.eq_nil_iff_forall_not_mem]
        intro patch hpatch
        obtain ⟨path, hpath⟩ := hcovered.parsed row hrow patch hpatch
        have hdisjoint := hnone path ((hrows row hrow).2 patch hpatch path hpath)
        rw [pathsOverlap_comm, pathsOverlap_nil] at hdisjoint
        cases hdisjoint
      cases before with
      | none =>
        obtain ⟨row, hrow, hnonempty⟩ := hcovered.created hbefore hwritten
        exact hnonempty (hpatches row hrow) (hempty row hrow)
      | some d =>
        rw [hcovered.of_empty hbefore hwritten hpatches hempty] at hafter
        cases hafter
        exact hdiffers rfl

/-- A document, and a commit that moves a member of it. -/
def movedHistory : List ApplyCommitOptions :=
  [.authored "s" (.ofOperations 1 [.set "of:d" none ⟨[("value", .record [("a", .null)])]⟩]),
   .authored "s" (.ofOperations 2 [.patch "of:d" none [.move "/value/a" "/value/b"]])]

def movedStore : Store := storeAfter (bareEngine 0 0) movedHistory

def movedDoc : DocInstance := ⟨DEFAULT_BRANCH, "of:d", DEFAULT_SCOPE_KEY⟩

theorem movedStore_reachable : Reachable (fun _ => True) movedStore :=
  Later.of_applyCommits (e := bareEngine 0 0) trivial movedHistory (by decide +kernel)

/-- What the move takes away is not reported. -/
theorem write_paths_miss_source :
    ¬∀ (s : Store) (doc : DocInstance) (seq : Nat) (before after : Option EntityDocument)
      (p : ValuePath), Reachable (fun _ => True) s → s.documentAt doc (some seq) = .ok before →
      s.documentAt doc none = .ok after → valueOf before p ≠ valueOf after p →
      s.Reported doc seq p := by
  intro hclaim
  obtain ⟨paths, hpaths, q, hq, hover⟩ := hclaim movedStore movedDoc 1
    (some ⟨[("value", .record [("a", .null)])]⟩) (some ⟨[("value", .record [("b", .null)])]⟩)
    ["value", "a"] movedStore_reachable (by decide +kernel) (by decide +kernel) (by decide +kernel)
  have hreport : movedStore.selectWritePathsSince
      ⟨some movedDoc.branch, movedDoc.id, movedDoc.scopeKey, 1⟩ = .ok [["value", "b"]] := by
    decide +kernel
  rw [hreport] at hpaths
  cases hpaths
  cases List.mem_singleton.1 hq
  exact absurd hover (by decide +kernel)

/-- A commit that adds a member where one was moved away. -/
def refilledHistory : List ApplyCommitOptions :=
  movedHistory ++
    [.authored "s" (.ofOperations 3 [.patch "of:d" none [.add "/value/a" (.bool true)]])]

def refilledStore : Store := storeAfter (bareEngine 0 0) refilledHistory

/-- The move and the addition report both places they change. -/
theorem refilled_covered (rows : List RevisionRow)
    (ha : reportsAbove rows ["value", "a"] = true) (hb : reportsAbove rows ["value", "b"] = true) :
    PatchesCovered rows (.record [("value", .record [("a", .null)])])
        [.move "/value/a" "/value/b"] ∧
      PatchesCovered rows (.record [("value", .record [("b", .null)])])
        [.add "/value/a" (.bool true)] := by
  have hs : parsePointer "/value/a" = .ok ["value", "a"] := by decide +kernel
  have hq : parsePointer "/value/b" = .ok ["value", "b"] := by decide +kernel
  have hremoved : removeAtPath (.record [("value", .record [("a", .null)])]) ["value", "a"] =
      .ok (.record [("value", .record [])]) := by decide +kernel
  have hc : ∀ fields key, containerAt (.record [("value", .record fields)]) ["value", key] =
      .record fields := fun _ _ => rfl
  refine ⟨⟨fun place h => ?_, fun _ _ => trivial⟩, fun place h => ?_, fun _ _ => trivial⟩
  · simp only [changes, hs, hq, hremoved, Except.toOption, Option.any_some, Bool.or_eq_true] at h
    rcases h with h | h
    · rw [changesChild_path (fun k hk => by simpa [hc, eraseChanges] using hk) h]; exact ha
    · rw [changesChild_path (fun k hk => by simpa [hc, insertChanges] using hk) h]
      exact hb
  · simp only [changes, hs, Except.toOption, Option.any_some] at h
    rw [changesChild_path (fun k hk => by simpa [hc, insertChanges] using hk) h]; exact ha

theorem write_paths_complete_refilled : refilledStore.Reported movedDoc 1 ["value", "a"] := by
  have hreach : Reachable (fun _ => True) refilledStore :=
    Later.of_applyCommits (e := bareEngine 0 0) trivial refilledHistory (by decide +kernel)
  have hrows : (refilledStore.rowsAfter movedDoc 1).map (fun row =>
        (row.data.isPatch, storedPatchList row)) =
      [(true, [.move "/value/a" "/value/b"]), (true, [.add "/value/a" (.bool true)])] := by
    decide +kernel
  have hbefore : refilledStore.documentAt movedDoc (some 1) =
      .ok (some ⟨[("value", .record [("a", .null)])]⟩) := by decide +kernel
  have hafter : refilledStore.documentAt movedDoc none =
      .ok (some ⟨[("value", .record [("a", .bool true), ("b", .null)])]⟩) := by decide +kernel
  refine write_paths_complete hreach ?_ hbefore hafter (by decide +kernel)
  have hthrough : refilledStore.rowsThrough movedDoc 1 ≠ [] := by decide +kernel
  obtain ⟨first, rest, hsplit, hfirst, hrest⟩ := List.map_eq_cons_iff.1 hrows
  obtain ⟨second, rest, rfl, hsecond, hnil⟩ := List.map_eq_cons_iff.1 hrest
  obtain rfl := List.map_eq_nil_iff.1 hnil
  obtain ⟨hpatch, hmove⟩ := Prod.mk.inj hfirst
  obtain ⟨-, hadd⟩ := Prod.mk.inj hsecond
  refine ⟨fun row hrow patch hmem => ?_, fun _ hnone => absurd hnone hthrough, fun before h => ?_,
    fun h => ?_⟩
  · rw [hsplit, List.mem_cons, List.mem_singleton] at hrow
    rcases hrow with rfl | rfl
    · rw [hmove, List.mem_singleton] at hmem
      exact ⟨["value", "b"], by rw [hmem]; decide +kernel⟩
    · rw [hadd, List.mem_singleton] at hmem
      exact ⟨["value", "a"], by rw [hmem]; decide +kernel⟩
  · rw [hbefore] at h
    cases h
    have hcovers := refilled_covered (refilledStore.rowsAfter movedDoc 1) (by decide +kernel)
      (by decide +kernel)
    rw [replayedOn, if_neg hthrough, hsplit]
    rw [hsplit] at hcovers
    refine ⟨fun d hd => ?_, fun d hd => ?_, trivial⟩
    · cases hd
      rw [hmove]
      exact hcovers.1
    · rw [applyRow_patch hpatch, hmove] at hd
      have hmoved : applyRevision (some ⟨[("value", .record [("a", .null)])]⟩)
          [.move "/value/a" "/value/b"] = .ok (some ⟨[("value", .record [("b", .null)])]⟩) := by
        decide +kernel
      rw [hmoved] at hd
      cases hd
      rw [hadd]
      exact hcovers.2
  · rw [hbefore] at h
    cases h

end Store
