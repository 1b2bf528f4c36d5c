import CommonFabric.Conflicts
import CommonFabric.RowFrame

/-!
# The reads a patch overlaps

A patch is matched against a read by the paths its operations touch: a read of everything below
a path by any touched path above or below it, a read of the shape at a path by those at or above
it. The first misses no value that a patch changes, as long as the places its operations add,
remove and move are keys.
-/

/-- Indicates whether an operation of the patches touches the read, each operation being read
up to the first that does. -/
def patchesTouchRead (nonRecursive : Bool) : List PatchOp → ValuePath → Except PatchError Bool
  | [], _ => .ok false
  | patch :: patches, readPath => do
    let leaves ← touchedLeafPathsForPatch patch
    if opTouchesRead patch leaves readPath nonRecursive then .ok true
    else patchesTouchRead nonRecursive patches readPath

def patchOverlapsRead (patches : List PatchOp) (readPath : ValuePath) : Except PatchError Bool :=
  patchesTouchRead false patches readPath

def patchOverlapsNonRecursiveRead (patches : List PatchOp) (readPath : ValuePath) :
    Except PatchError Bool :=
  patchesTouchRead true patches readPath

/-- Of operations whose paths parse, either one is found to touch the read or none does. -/
theorem patchesTouchRead_cases {nonRecursive : Bool} {patches : List PatchOp} {readPath : ValuePath}
    (h : ∀ op ∈ patches, ∃ leaves, touchedLeafPathsForPatch op = .ok leaves) :
    patchesTouchRead nonRecursive patches readPath = .ok true ∨
      ∀ op ∈ patches, OpClear op readPath nonRecursive := by
  induction patches with
  | nil => exact .inr (by simp)
  | cons op patches ih =>
    obtain ⟨leaves, hleaves⟩ := h op List.mem_cons_self
    rw [patchesTouchRead, hleaves, Except.ok_bind]
    cases htouch : opTouchesRead op leaves readPath nonRecursive with
    | true => exact .inl rfl
    | false =>
      cases ih fun op' hop' => h op' (List.mem_cons_of_mem _ hop') with
      | inl hfound => exact .inl hfound
      | inr hclear =>
        right
        intro op' hop'
        cases List.mem_cons.1 hop' with
        | inl heq => exact ⟨leaves, heq ▸ hleaves, heq ▸ htouch⟩
        | inr hmem => exact hclear op' hmem

theorem patchesTouchRead_of_clear {nonRecursive : Bool} {patches : List PatchOp}
    {readPath : ValuePath} (h : ∀ op ∈ patches, OpClear op readPath nonRecursive) :
    patchesTouchRead nonRecursive patches readPath = .ok false := by
  induction patches with
  | nil => rfl
  | cons op patches ih =>
    obtain ⟨leaves, hleaves, htouch⟩ := h op List.mem_cons_self
    rw [patchesTouchRead, hleaves, Except.ok_bind, htouch]
    exact ih fun op' hop' => h op' (List.mem_cons_of_mem _ hop')

variable {pointer : JsString} {op : PatchOp} {doc : FabricValue}

theorem touchedLeafPaths_single {path : ValuePath}
    (hop : op.pointers = [pointer]) (h : parsePointer pointer = .ok path) :
    touchedLeafPathsForPatch op = .ok [path] := by
  rw [touchedLeafPathsForPatch, hop, List.mapM_cons, h]
  rfl

theorem touchedLeafPaths_move {source : JsString} {from_ path : ValuePath}
    (hs : parsePointer source = .ok from_) (h : parsePointer pointer = .ok path) :
    touchedLeafPathsForPatch (.move source pointer) = .ok [from_, path] := by
  rw [touchedLeafPathsForPatch, PatchOp.pointers, List.mapM_cons, hs, List.mapM_cons, h]
  rfl

/-- An operation that applies has paths that parse. -/
theorem applyOp_leaves {doc' : FabricValue} (h : applyOp doc op = .ok doc') :
    ∃ leaves, touchedLeafPathsForPatch op = .ok leaves := by
  cases op with
  | move source pointer =>
    obtain ⟨from_, hfrom, h⟩ := Except.bind_ok_iff.1 h
    obtain ⟨path, hpath, -⟩ := Except.bind_ok_iff.1 h
    exact ⟨_, touchedLeafPaths_move hfrom hpath⟩
  | _ =>
    obtain ⟨path, hpath, -⟩ := Except.bind_ok_iff.1 h
    exact ⟨_, touchedLeafPaths_single rfl hpath⟩

/-- Patches that apply have paths that parse. -/
theorem applyPatch_leaves {ops : List PatchOp} {doc' : FabricValue}
    (h : applyPatch doc ops = .ok doc') :
    ∀ op ∈ ops, ∃ leaves, touchedLeafPathsForPatch op = .ok leaves := by
  induction ops generalizing doc with
  | nil => simp
  | cons op ops ih =>
    obtain ⟨next, hstep, hrest⟩ := List.foldlM_cons_ok.1 h
    intro op' hop'
    cases List.mem_cons.1 hop' with
    | inl heq => rw [heq]; exact applyOp_leaves hstep
    | inr hmem => exact ih hrest op' hmem

def isRecordValue : FabricValue → Bool
  | .record _ => true
  | _ => false

namespace PatchOp

/-- A pointer of the operation, an `add`, `remove` or `move`, ends in an array index. -/
def endsInIndex (op : PatchOp) : Bool :=
  op.isStructural && op.pointers.any fun pointer =>
    match parsePointer pointer with
    | .ok path => (path.getLast?.map isArrayIndexPropertyName).getD false
    | .error _ => false

/-- A pointer of the operation ends in the append marker, and what the document holds above
it is no plain object, of which the marker would be a key. -/
def marksArrayEnd (doc : FabricValue) (op : PatchOp) : Bool :=
  op.isStructural && op.pointers.any fun pointer =>
    match parsePointer pointer with
    | .ok path => path.getLast? = some appendMarker &&
        !((valueAt doc path.dropLast).map isRecordValue).getD false
    | .error _ => false

end PatchOp

/-- No operation marks an array's end in the document it applies to. -/
def marksNoArrayEnd : FabricValue → List PatchOp → Bool
  | _, [] => true
  | doc, op :: ops =>
    !op.marksArrayEnd doc &&
      match applyOp doc op with
      | .ok next => marksNoArrayEnd next ops
      | .error _ => true

namespace Patch

/-- The last segment of the path names a key of the container it addresses. -/
structure Keyed (doc : FabricValue) (path : ValuePath) : Prop where
  notIndex : isArrayIndexPropertyName (lastKey path) = false
  marker : lastKey path = appendMarker → ∃ fields, valueAt doc path.dropLast = some (.record fields)

variable {key : JsString} {path : ValuePath}

theorem parseArrayIndex_name {i : Nat} (h : parseArrayIndex key = .ok i) :
    isArrayIndexPropertyName key = true := by
  have hidx := parseArrayIndex_ok h
  simp only [parseArrayIndex, hidx] at h
  split at h
  · cases h
  · simp only [isArrayIndexPropertyName, hidx, decide_eq_true_eq]
    omega

theorem parseArrayInsertIndex_name {n i : Nat}
    (h : parseArrayInsertIndex key n = .ok i) : isArrayIndexPropertyName key = true := by
  obtain ⟨j, hj, -⟩ := Except.bind_ok_iff.1 h
  exact parseArrayIndex_name hj

theorem requireExistingArrayIndex_name {slots : Slots}
    {i : Nat} (h : requireExistingArrayIndex slots key path = .ok i) :
    isArrayIndexPropertyName key = true := by
  obtain ⟨j, hj, -⟩ := Except.bind_ok_iff.1 h
  exact parseArrayIndex_name hj

/-- An addition at a key changes nothing beside it. -/
theorem Keyed.add_frame {root root' value : FabricValue} {q p : ValuePath} (hkey : Keyed root q)
    (h : addAtPath root q value = .ok root') (hp : pathsOverlap q p = false) :
    valueAt root' p = valueAt root p := by
  have hq := overlap_ne_nil hp
  simp only [addAtPath, hq, if_false] at h
  obtain ⟨-, h⟩ := Except.check_ok_iff.1 h
  apply editParent_frame hq h hp
  intro c c' hf hc k _ hk
  have hrecord : (∃ fields, c = .record fields) ∨ (c = .array [] ∧ lastKey q ≠ appendMarker) := by
    cases c with
    | record fields => exact .inl ⟨fields, rfl⟩
    | array slots =>
      exfalso
      by_cases hmarker : lastKey q = appendMarker
      · obtain ⟨fields, hfields⟩ := hkey.marker hmarker
        cases hc with
        | inl hthere => rw [hfields] at hthere; cases hthere
        | inr hcreated =>
          obtain ⟨_, -, hnone, -⟩ := hcreated
          rw [hfields] at hnone
          cases hnone
      · simp only [addIn, hmarker, if_false] at hf
        obtain ⟨i, hi, -⟩ := Except.bind_ok_iff.1 hf
        have hindex := parseArrayInsertIndex_name hi
        rw [hkey.notIndex] at hindex
        cases hindex
    | _ => cases hf
  rw [addIn_child hf hrecord, if_neg hk]

theorem Keyed.remove_frame {root root' : FabricValue} {q p : ValuePath} (hkey : Keyed root q)
    (h : removeAtPath root q = .ok root') (hp : pathsOverlap q p = false) :
    valueAt root' p = valueAt root p := by
  have hq := overlap_ne_nil hp
  simp only [removeAtPath, hq, if_false] at h
  apply editParent_frame hq h hp
  intro c c' hf _ k _ hk
  cases c with
  | record fields => rw [removeIn_child hf, if_neg hk]
  | array slots =>
    obtain ⟨i, hi, -⟩ := Except.bind_ok_iff.1 hf
    have hindex := requireExistingArrayIndex_name hi
    rw [hkey.notIndex] at hindex
    cases hindex
  | _ => cases hf

theorem setChild_isRecord {full : ValuePath} {v c v' : FabricValue}
    (h : setChild full v key c = .ok v') : isRecordValue v' = isRecordValue v := by
  cases v with
  | array slots =>
    simp only [setChild] at h
    split at h
    · cases h; rfl
    · cases h
  | record fields => cases h; rfl
  | _ => cases h

theorem removeIn_isRecord {c c' : FabricValue}
    (h : removeIn path c = .ok c') : isRecordValue c' = isRecordValue c := by
  cases c with
  | array slots =>
    obtain ⟨i, -, h⟩ := Except.bind_ok_iff.1 h
    cases h; rfl
  | record fields =>
    simp only [removeIn] at h
    split at h
    · cases h; rfl
    · cases h
  | _ => cases h

/-- Removing a member leaves a plain object above it, or beside it, a plain object. -/
theorem remove_record {root root' : FabricValue} {source : ValuePath}
    (hframe : pathsOverlap source path.dropLast = false →
      valueAt root' path.dropLast = valueAt root path.dropLast)
    (h : removeAtPath root source = .ok root') (hs : source ≠ []) (hnil : path ≠ [])
    (hpre : isStrictPrefixPath source path = false) {fields : List (JsString × FabricValue)}
    (hpath : valueAt root path.dropLast = some (.record fields)) :
    ∃ fields', valueAt root' path.dropLast = some (.record fields') := by
  by_cases hov : pathsOverlap source path.dropLast = true
  · -- `path.dropLast` lies on the spine of the removal
    have hsource : isPrefixPath source path.dropLast = false := by
      by_contra hc
      obtain ⟨r, hr⟩ := (isPrefixPath_iff _ _).1 (Bool.not_eq_false _ ▸ hc)
      have hfull : path = source ++ (r ++ [lastKey path]) := by
        rw [← List.append_assoc, ← hr, ← path_split hnil]
      rw [hfull] at hpre
      simp [isStrictPrefixPath] at hpre
    rw [pathsOverlap, hsource, Bool.false_or] at hov
    obtain ⟨r, hr⟩ := (isPrefixPath_iff _ _).1 hov
    have hrne : r ≠ [] := by
      rintro rfl
      rw [List.append_nil] at hr
      rw [hr, isPrefixPath_self] at hsource
      cases hsource
    have hspine : source.dropLast = path.dropLast ++ r.dropLast := by
      rw [hr, List.dropLast_append_of_ne_nil hrne]
    simp only [removeAtPath, hs, if_false] at h
    rw [hspine] at h
    obtain ⟨w, hw, hv⟩ := editSpine_below h
    rw [hpath] at hw
    have hrecord : isRecordValue w = true := by
      generalize hc : FabricValue.record fields = c at hw
      have hw' : isRecordValue w = isRecordValue c := by
        simp only [editBelow] at hw
        generalize r.dropLast = spine at hw
        cases spine with
        | nil =>
          simp only [editSpine] at hw
          split at hw
          · exact removeIn_isRecord hw
          · cases hw
        | cons key rest =>
          cases editSpine_cons hw with
          | inl hthere =>
            obtain ⟨_, _, -, -, hset⟩ := hthere
            exact setChild_isRecord hset
          | inr hcreated =>
            obtain ⟨_, _, -, hcreate, -⟩ := hcreated
            cases hcreate
      rw [hw', ← hc]
      rfl
    cases w with
    | record fields' => exact ⟨fields', hv⟩
    | _ => cases hrecord
  · exact ⟨fields, by rw [hframe (by simpa using hov), hpath]⟩

theorem Keyed.move_frame {root root' : FabricValue} {source p : ValuePath}
    (hsource : Keyed root source) (hpath : Keyed root path)
    (h : moveValue root source path = .ok root') (hs : pathsOverlap source p = false)
    (hp : pathsOverlap path p = false) : valueAt root' p = valueAt root p := by
  have hsne := overlap_ne_nil hs
  simp only [moveValue, hsne, if_false] at h
  split at h
  · cases h
  · rename_i hpre
    obtain ⟨extracted, -, h⟩ := Except.bind_ok_iff.1 h
    obtain ⟨removed, hremove, h⟩ := Except.bind_ok_iff.1 h
    have hkeyed : Keyed removed path :=
      { notIndex := hpath.notIndex
        marker := fun hmarker => by
          obtain ⟨fields, hfields⟩ := hpath.marker hmarker
          exact remove_record (hsource.remove_frame hremove) hremove hsne (overlap_ne_nil hp)
            (by simpa using hpre) hfields }
    rw [hkeyed.add_frame h hp, hsource.remove_frame hremove hs]

end Patch

open Patch PatchOp

theorem getLast?_lastKey {q : ValuePath} (hne : q ≠ []) : q.getLast? = some (lastKey q) := by
  rw [path_split hne, List.getLast?_concat, lastKey, lastKey, List.getLastD_concat]

/-- Of an operation that marks no array's end, a path whose last segment is the append marker
names a member of a plain object. -/
theorem marker_of_rule (hmark : op.marksArrayEnd doc = false)
    (hstructural : op.isStructural = true) (hmem : pointer ∈ op.pointers)
    {q : ValuePath} (hq : parsePointer pointer = .ok q) (hne : q ≠ [])
    (hmarker : lastKey q = appendMarker) :
    ∃ fields, valueAt doc q.dropLast = some (.record fields) := by
  simp only [marksArrayEnd, hstructural, Bool.true_and, List.any_eq_false] at hmark
  have hm := hmark pointer hmem
  simp only [hq, getLast?_lastKey hne, hmarker, decide_true, Bool.true_and, Bool.not_eq_true,
    Bool.not_eq_false'] at hm
  cases hv : valueAt doc q.dropLast with
  | none => rw [hv] at hm; cases hm
  | some v =>
    rw [hv] at hm
    cases v with
    | record fields => exact ⟨fields, rfl⟩
    | _ => cases hm

/-- What the two rules say of a path of an operation they concern. -/
theorem keyed_of_rules (hindex : op.endsInIndex = false)
    (hmark : op.marksArrayEnd doc = false) (hstructural : op.isStructural = true)
    (hmem : pointer ∈ op.pointers) {q : ValuePath}
    (hq : parsePointer pointer = .ok q) (hne : q ≠ []) : Keyed doc q where
  notIndex := by
    simp only [endsInIndex, hstructural, Bool.true_and, List.any_eq_false] at hindex
    simpa only [hq, getLast?_lastKey hne, Option.map_some, Option.getD_some,
      Bool.not_eq_true] using hindex pointer hmem
  marker := marker_of_rule hmark hstructural hmem hq hne

/-- An operation that keeps to keys changes nothing at a path its touched paths leave alone. -/
theorem applyOp_keyed_frame {root root' : FabricValue} {p : ValuePath}
    (h : applyOp root op = .ok root') (hclear : OpClear op p false)
    (hindex : op.endsInIndex = false) (hmark : op.marksArrayEnd root = false) :
    valueAt root' p = valueAt root p := by
  obtain ⟨leaves, hleaves, hdisjoint⟩ := opClear_disjoint hclear
  have hov {pointer : JsString} (hmem : pointer ∈ op.pointers) {q : ValuePath}
      (hq : parsePointer pointer = .ok q) : pathsOverlap q p = false :=
    hdisjoint q (touchedLeafPaths_mem hleaves hmem hq)
  cases hstructural : op.isStructural with
  | false =>
    refine applyOp_frame h hleaves hdisjoint ?_
    simp [shiftsElements, indexesExistingArray, marksAppend, hstructural]
  | true =>
    have hkeyed {pointer : JsString} (hmem : pointer ∈ op.pointers) {q : ValuePath}
        (hq : parsePointer pointer = .ok q) : Keyed root q :=
      keyed_of_rules hindex hmark hstructural hmem hq (overlap_ne_nil (hov hmem hq))
    cases op with
    | add path value =>
      obtain ⟨q, hq, h⟩ := Except.bind_ok_iff.1 h
      exact (hkeyed (by simp [pointers]) hq).add_frame h (hov (by simp [pointers]) hq)
    | remove path =>
      obtain ⟨q, hq, h⟩ := Except.bind_ok_iff.1 h
      exact (hkeyed (by simp [pointers]) hq).remove_frame h (hov (by simp [pointers]) hq)
    | move source path =>
      obtain ⟨s, hs, h⟩ := Except.bind_ok_iff.1 h
      obtain ⟨q, hq, h⟩ := Except.bind_ok_iff.1 h
      have hsource : source ∈ (PatchOp.move source path).pointers := by simp [pointers]
      have hpath : path ∈ (PatchOp.move source path).pointers := by simp [pointers]
      exact (hkeyed hsource hs).move_frame (hkeyed hpath hq) h (hov hsource hs) (hov hpath hq)
    | _ => cases hstructural

theorem applyPatch_keyed_frame {ops : List PatchOp} {doc' : FabricValue} {p : ValuePath}
    (h : applyPatch doc ops = .ok doc') (hclear : ∀ op ∈ ops, OpClear op p false)
    (hindex : ∀ op ∈ ops, op.endsInIndex = false) (hmark : marksNoArrayEnd doc ops = true) :
    valueAt doc' p = valueAt doc p := by
  induction ops generalizing doc with
  | nil => cases h; rfl
  | cons op ops ih =>
    obtain ⟨next, hstep, hrest⟩ := List.foldlM_cons_ok.1 h
    simp only [marksNoArrayEnd, hstep, Bool.and_eq_true, Bool.not_eq_true'] at hmark
    rw [ih hrest (fun op' hop' => hclear op' (List.mem_cons_of_mem _ hop'))
      (fun op' hop' => hindex op' (List.mem_cons_of_mem _ hop')) hmark.2]
    exact applyOp_keyed_frame hstep (hclear op List.mem_cons_self) (hindex op List.mem_cons_self)
      hmark.1

/-- A patch that keeps to keys overlaps every read of a value that it changes. -/
theorem patchOverlapsRead_sound {ops : List PatchOp} {doc doc' : FabricValue} {p : ValuePath}
    (h : applyPatch doc ops = .ok doc') (hindex : ∀ op ∈ ops, op.endsInIndex = false)
    (hmark : marksNoArrayEnd doc ops = true) (hp : valueAt doc' p ≠ valueAt doc p) :
    patchOverlapsRead ops p = .ok true := by
  cases patchesTouchRead_cases (applyPatch_leaves h) with
  | inl hfound => exact hfound
  | inr hclear => exact absurd (applyPatch_keyed_frame h hclear hindex hmark) hp

def listedDocument : FabricValue := .record [("value", .record [("a", .array [some .null])])]

theorem patchOverlapsRead_sound_key :
    patchOverlapsRead [.add "/value/b/-" (.bool true), .increment "/value/n" (.finite 1) true]
      ["value", "b"] = .ok true :=
  @patchOverlapsRead_sound
    [.add "/value/b/-" (.bool true), .increment "/value/n" (.finite 1) true]
    (.record [("value", .record [("b", .record [])])])
    (.record [("value", .record [("b", .record [("-", .bool true)]), ("n", .number (.finite 1))])])
    ["value", "b"] (by decide +kernel) (by decide +kernel) (by decide +kernel) (by decide +kernel)

/-- The append marker is no array index, and the element it adds stands at no touched path. -/
theorem patchOverlapsRead_misses_append :
    applyPatch listedDocument [.add "/value/a/-" (.bool true)] =
      .ok (.record [("value", .record [("a", .array [some .null, some (.bool true)])])]) ∧
    (∀ op ∈ [PatchOp.add "/value/a/-" (.bool true)], op.endsInIndex = false) ∧
    valueAt (.record [("value", .record [("a", .array [some .null, some (.bool true)])])])
      ["value", "a", "1"] ≠ valueAt listedDocument ["value", "a", "1"] ∧
    patchOverlapsRead [.add "/value/a/-" (.bool true)] ["value", "a", "1"] = .ok false := by
  decide +kernel
