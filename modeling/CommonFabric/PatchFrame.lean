import CommonFabric.Patch
import CommonFabric.Checked

/-!
# What a patch leaves alone

An edit along a spine changes nothing at a path that leaves the spine, and what
it leaves at a path on the spine depends only on the value that was there. From
the two, an operation is local to its touched paths, unless it shifts the
elements of an array.
-/

namespace Patch

variable {key : JsString} {path full spine : ValuePath} {v v' : FabricValue}
  {create : Option JsString} {f : FabricValue → Result}

theorem parseArrayIndex_ok {i : Nat} (h : parseArrayIndex key = .ok i) :
    arrayIndex? key = some i := by
  simp only [parseArrayIndex] at h
  split at h
  · cases h
  · rename_i j hj
    split at h
    · cases h
    · cases h; exact hj

theorem requireExistingArrayIndex_ok {slots : Slots}
    {i : Nat} (h : requireExistingArrayIndex slots key path = .ok i) :
    arrayIndex? key = some i ∧ (slots[i]?.join).isSome = true := by
  simp only [requireExistingArrayIndex, Except.bind_ok_iff] at h
  obtain ⟨j, hj, h⟩ := h
  split at h
  · cases h; exact ⟨parseArrayIndex_ok hj, by assumption⟩
  · cases h

theorem parseArrayInsertIndex_ok {n i : Nat}
    (h : parseArrayInsertIndex key n = .ok i) : arrayIndex? key = some i ∧ i ≤ n := by
  simp only [parseArrayInsertIndex, Except.bind_ok_iff] at h
  obtain ⟨j, hj, h⟩ := h
  split at h
  · cases h
  · cases h; exact ⟨parseArrayIndex_ok hj, by omega⟩

theorem child_array {slots : Slots} {i : Nat} (h : arrayIndex? key = some i) :
    child (.array slots) key = slots[i]?.join := by
  simp [child, h]

theorem setSlot_get (slots : Slots) (i j : Nat) (v : FabricValue) :
    (setSlot slots i v)[j]?.join = if j = i then some v else slots[j]?.join := by
  unfold setSlot
  split
  · rename_i hi
    by_cases hj : j = i
    · subst hj; simp [hi]
    · simp [hj, List.getElem?_set_ne (Ne.symm hj)]
  · rename_i hi
    rcases Nat.lt_trichotomy j i with hlt | heq | hgt
    · simp only [Nat.ne_of_lt hlt, if_false]
      rw [List.getElem?_append_left (by simp; omega)]
      by_cases hs : j < slots.length
      · rw [List.getElem?_append_left hs]
      · rw [List.getElem?_append_right (by omega), List.getElem?_eq_none (l := slots) (by omega)]
        rw [List.getElem?_replicate]
        split <;> rfl
    · subst heq
      rw [List.getElem?_append_right (by simp; omega)]
      simp [show j - (slots.length + (j - slots.length)) = 0 by omega]
    · simp only [Nat.ne_of_gt hgt, if_false]
      rw [List.getElem?_eq_none (by simp; omega), List.getElem?_eq_none (by omega)]

/-- Assignment at a key is seen at that key and nowhere else. -/
theorem child_setChild {c : FabricValue} (h : setChild full v key c = .ok v') (k : JsString) :
    child v' k = if k = key then some c else child v k := by
  cases v with
  | array slots =>
    simp only [setChild] at h
    split at h
    · rename_i i hi
      cases h
      have hkey := parseArrayIndex_ok hi
      by_cases hk : k = key
      · subst hk; simp [child_array hkey, setSlot_get]
      · simp only [hk, if_false, child]
        cases hidx : arrayIndex? k with
        | none => rfl
        | some j =>
          have hj : j ≠ i := by
            rintro rfl
            exact hk (arrayIndex?_injective hidx hkey)
          simp [setSlot_get, hj]
    · cases h
  | record fields =>
    simp only [setChild, Except.ok.injEq] at h
    subst h
    simp only [child, Fields.get?_set]
    by_cases hk : k = key
    · simp [hk]
    · simp [hk, Ne.symm hk]
  | _ => simp [setChild] at h

theorem setChild_isContainer {c : FabricValue}
    (h : setChild full v key c = .ok v') : isContainer v = true := by
  cases v <;> simp_all [setChild, isContainer]

theorem valueAt_setChild {c : FabricValue}
    (h : setChild full v key c = .ok v') (k : JsString) (rest : ValuePath) :
    valueAt v' (k :: rest) = if k = key then valueAt c rest else valueAt v (k :: rest) := by
  rw [valueAt_cons, child_setChild h]
  split
  · rfl
  · rw [valueAt_cons]

theorem child_ownSlot (h : ownSlot v key = none) :
    child v key = none := by
  cases v with
  | array slots =>
    simp only [ownSlot] at h
    split at h
    · cases h
    · exact h
  | _ => exact h

theorem ownSlot_container {c : FabricValue} (h : ownSlot v key = some c)
    (hc : isContainer c = true) : child v key = some c := by
  cases v with
  | array slots =>
    simp only [ownSlot] at h
    split at h
    · cases h; simp [isContainer] at hc
    · exact h
  | _ => exact h

@[simp] theorem child_createMissing (key k : JsString) :
    child (createMissingContainer key) k = none := by
  unfold createMissingContainer
  split
  · simp only [child]; split <;> simp
  · rfl

@[simp] theorem valueAt_createMissing (key k : JsString) (rest : ValuePath) :
    valueAt (createMissingContainer key) (k :: rest) = none := by
  simp [valueAt_cons]

theorem editSpine_container
    (h : editSpine full create f v spine = .ok v') : isContainer v = true := by
  cases spine with
  | nil =>
    simp only [editSpine] at h
    split at h
    · assumption
    · cases h
  | cons key rest =>
    simp only [editSpine] at h
    split at h
    · obtain ⟨c, -, h⟩ := Except.bind_ok_iff.1 h
      exact setChild_isContainer h
    · split at h
      · assumption
      · cases h

/-- A descent takes one of two turns at a segment: into the child that is there,
or into what it creates for a child that is missing. -/
theorem editSpine_cons {rest : ValuePath} (h : editSpine full create f v (key :: rest) = .ok v') :
    (∃ c c', child v key = some c ∧ editSpine full create f c rest = .ok c' ∧
      setChild full v key c' = .ok v') ∨
    (∃ nextKey c', child v key = none ∧ create = some nextKey ∧
      createSpine full nextKey f rest = .ok c' ∧ setChild full v key c' = .ok v') := by
  simp only [editSpine] at h
  split at h
  · rename_i c hc
    obtain ⟨c', hc', h⟩ := Except.bind_ok_iff.1 h
    exact .inl ⟨c, c', ownSlot_container hc (editSpine_container hc'), hc', h⟩
  · rename_i hnone
    split at h
    · split at h
      · cases h
      · rename_i nextKey
        obtain ⟨c', hc', h⟩ := Except.bind_ok_iff.1 h
        exact .inr ⟨nextKey, c', child_ownSlot hnone, rfl, hc', h⟩
    · cases h

/-- A created spine holds nothing beside itself. -/
theorem createSpine_outside {nextKey : JsString} {p : ValuePath}
    (h : createSpine full nextKey f spine = .ok v')
    (hp : pathsOverlap spine p = false) : valueAt v' p = none := by
  induction spine generalizing v' p with
  | nil => simp [pathsOverlap_nil] at hp
  | cons key rest ih =>
    obtain ⟨c, hc, h⟩ := Except.bind_ok_iff.1 h
    cases p with
    | nil => simp [pathsOverlap_comm _ [], pathsOverlap_nil] at hp
    | cons k p =>
      rw [valueAt_setChild h]
      by_cases hk : k = key
      · subst hk
        rw [pathsOverlap_cons] at hp
        simpa using ih hc hp
      · simp [hk]

/-- A path that leaves the spine keeps its value. -/
theorem editSpine_outside {p : ValuePath}
    (h : editSpine full create f v spine = .ok v') (hp : pathsOverlap spine p = false) :
    valueAt v' p = valueAt v p := by
  induction spine generalizing v v' p with
  | nil => simp [pathsOverlap_nil] at hp
  | cons key rest ih =>
    cases p with
    | nil => simp [pathsOverlap_comm _ [], pathsOverlap_nil] at hp
    | cons k p =>
      rcases editSpine_cons h with ⟨c, c', hc, hc', hs⟩ | ⟨nextKey, c', hc, -, hc', hs⟩
      · rw [valueAt_setChild hs]
        by_cases hk : k = key
        · subst hk
          rw [pathsOverlap_cons] at hp
          simpa [valueAt_cons, hc] using ih hc' hp
        · simp [hk]
      · rw [valueAt_setChild hs]
        by_cases hk : k = key
        · subst hk
          rw [pathsOverlap_cons] at hp
          simpa [valueAt_cons, hc] using createSpine_outside hc' hp
        · simp [hk]

/-- What a descent makes of the value, if any, at a point of its spine. -/
def editBelow (full : ValuePath) (create : Option JsString) (f : FabricValue → Result) :
    Option FabricValue → ValuePath → Result
  | some c, rest => editSpine full create f c rest
  | none, rest =>
    match create with
    | some nextKey => createSpine full nextKey f rest
    | none => .error (.missingPath full)

theorem createSpine_below {nextKey : JsString} {p rest : ValuePath}
    (h : createSpine full nextKey f (p ++ rest) = .ok v') :
    ∃ w, createSpine full nextKey f rest = .ok w ∧ valueAt v' p = some w := by
  induction p generalizing v' with
  | nil => exact ⟨v', h, rfl⟩
  | cons key p ih =>
    obtain ⟨c, hc, h⟩ := Except.bind_ok_iff.1 h
    obtain ⟨w, hw, hv⟩ := ih hc
    exact ⟨w, hw, by rw [valueAt_setChild h]; simpa using hv⟩

/-- What a descent leaves at a point of its spine depends on the value that was
there alone. -/
theorem editSpine_below {p rest : ValuePath} (h : editSpine full create f v (p ++ rest) = .ok v') :
    ∃ w, editBelow full create f (valueAt v p) rest = .ok w ∧ valueAt v' p = some w := by
  induction p generalizing v v' with
  | nil => exact ⟨v', h, rfl⟩
  | cons key p ih =>
    rw [List.cons_append] at h
    rcases editSpine_cons h with ⟨c, c', hc, hc', hs⟩ | ⟨nextKey, c', hc, rfl, hc', hs⟩
    · obtain ⟨w, hw, hv⟩ := ih hc'
      refine ⟨w, ?_, ?_⟩
      · simpa [valueAt_cons, hc] using hw
      · rw [valueAt_setChild hs]; simpa using hv
    · obtain ⟨w, hw, hv⟩ := createSpine_below hc'
      refine ⟨w, ?_, ?_⟩
      · simpa [valueAt_cons, hc, editBelow] using hw
      · rw [valueAt_setChild hs]; simpa using hv

/-- The container an edit reaches at the end of its spine: the one that is there,
or the one created where it is missing. -/
theorem editSpine_leaf (h : editSpine full create f v spine = .ok v') :
    ∃ c c', f c = .ok c' ∧ valueAt v' spine = some c' ∧
      (valueAt v spine = some c ∨
        ∃ nextKey, create = some nextKey ∧ valueAt v spine = none ∧
          c = createMissingContainer nextKey) := by
  have hspine : editSpine full create f v (spine ++ []) = .ok v' := by simpa using h
  obtain ⟨w, hw, hv⟩ := editSpine_below hspine
  cases hc : valueAt v spine with
  | some c =>
    rw [hc] at hw
    simp only [editBelow, editSpine] at hw
    split at hw
    · exact ⟨c, w, hw, hv, .inl rfl⟩
    · cases hw
  | none =>
    rw [hc] at hw
    cases create with
    | none => simp [editBelow] at hw
    | some nextKey => exact ⟨_, w, hw, hv, .inr ⟨nextKey, rfl, rfl, rfl⟩⟩

/-- Below the end of its spine, an edit shows what its leaf function does to the
children of the container there. -/
theorem editSpine_children (h : editSpine full create f v spine = .ok v') :
    ∃ c c', f c = .ok c' ∧
      (valueAt v spine = some c ∨ ∃ nextKey, create = some nextKey ∧ valueAt v spine = none ∧
        c = createMissingContainer nextKey) ∧
      (∀ k r, valueAt v (spine ++ k :: r) = valueAt c (k :: r)) ∧
      (∀ k r, valueAt v' (spine ++ k :: r) = valueAt c' (k :: r)) := by
  obtain ⟨c, c', hf, hv', hv⟩ := editSpine_leaf h
  refine ⟨c, c', hf, ?_, ?_, ?_⟩
  · exact hv
  · intro k r
    rcases hv with hv | ⟨nextKey, -, hnone, rfl⟩
    · rw [valueAt_append, hv]; rfl
    · rw [valueAt_append, hnone, valueAt_createMissing]; rfl
  · intro k r
    rw [valueAt_append, hv']; rfl

theorem path_split {q : ValuePath} (hq : q ≠ []) : q = q.dropLast ++ [lastKey q] := by
  simp [lastKey, List.getLastD_eq_getLast?, List.getLast?_eq_some_getLast hq,
    List.dropLast_append_getLast hq]

/-- An edit of the container above a path changes nothing beside that path, when
its leaf function changes no other child of the container that the place beside names. -/
theorem editParent_frame {q p : ValuePath} {root root' : FabricValue} (hq : q ≠ [])
    (h : editSpine full create f root q.dropLast = .ok root') (hp : pathsOverlap q p = false)
    (hf : ∀ c c', f c = .ok c' →
      (valueAt root q.dropLast = some c ∨ ∃ nextKey, create = some nextKey ∧
        valueAt root q.dropLast = none ∧ c = createMissingContainer nextKey) →
      ∀ k, (∃ r, p = q.dropLast ++ k :: r) → k ≠ lastKey q → child c' k = child c k) :
    valueAt root' p = valueAt root p := by
  obtain ⟨stem, k, l, r, s, hqs, hps, hkl⟩ := diverge hp
  have hsplit := path_split hq
  rcases List.eq_nil_or_concat r with rfl | ⟨r', last, rfl⟩
  · -- the paths part at the last segment of `q`
    have hstem : q.dropLast = stem := by rw [hqs]; simp
    have hlast : lastKey q = k := by rw [hqs]; simp [lastKey]
    obtain ⟨c, c', hfc, hc, hv, hv'⟩ := editSpine_children h
    have hbeside : ∃ r, p = q.dropLast ++ l :: r := ⟨s, by rw [hps, hstem]⟩
    rw [hps, ← hstem, hv', hv]
    exact valueAt_congr_child (hf c c' hfc hc l hbeside (by rw [hlast]; exact Ne.symm hkl)) s
  · -- they part on the spine
    apply editSpine_outside h
    have hdrop : q.dropLast = stem ++ k :: r' := by
      rw [hqs, List.concat_eq_append, ← List.cons_append, ← List.append_assoc,
        List.dropLast_concat]
    rw [hdrop, hps, pathsOverlap_append_left, pathsOverlap_cons_ne hkl]

theorem replaceIn_child {value c c' : FabricValue}
    (h : replaceIn path value c = .ok c') (k : JsString) :
    child c' k = if k = lastKey path then some value else child c k := by
  cases c with
  | array slots =>
    obtain ⟨i, hi, h⟩ := Except.bind_ok_iff.1 h
    obtain ⟨hidx, hsome⟩ := requireExistingArrayIndex_ok hi
    cases h
    by_cases hk : k = lastKey path
    · subst hk
      have hlt : i < slots.length := by
        by_contra hge
        simp [List.getElem?_eq_none (Nat.le_of_not_lt hge)] at hsome
      simp [child_array hidx, hlt]
    · simp only [hk, if_false, child]
      cases hj : arrayIndex? k with
      | none => rfl
      | some j =>
        have hne : i ≠ j := by
          rintro rfl
          exact hk (arrayIndex?_injective hj hidx)
        simp [List.getElem?_set_ne hne]
  | record fields =>
    simp only [replaceIn, Except.ok.injEq] at h
    subst h
    simp only [child, Fields.get?_set]
    by_cases hk : k = lastKey path
    · simp [hk]
    · simp [hk, Ne.symm hk]
  | _ => simp [replaceIn] at h

/-- An addition beside existing elements is the one that shifts them; to a plain
object, or to the fresh array of an index, it adds one child. -/
theorem addIn_child {value c c' : FabricValue} (h : addIn path value c = .ok c')
    (hc : (∃ fields, c = .record fields) ∨ (c = .array [] ∧ lastKey path ≠ appendMarker))
    (k : JsString) : child c' k = if k = lastKey path then some value else child c k := by
  rcases hc with ⟨fields, rfl⟩ | ⟨rfl, hne⟩
  · simp only [addIn, Except.ok.injEq] at h
    subst h
    simp only [child, Fields.get?_set]
    by_cases hk : k = lastKey path
    · simp [hk]
    · simp [hk, Ne.symm hk]
  · simp only [addIn, hne, if_false] at h
    obtain ⟨i, hi, h⟩ := Except.bind_ok_iff.1 h
    obtain ⟨hidx, hle⟩ := parseArrayInsertIndex_ok hi
    have h0 : i = 0 := by simpa using hle
    subst h0
    cases h
    by_cases hk : k = lastKey path
    · subst hk; simp [child_array hidx]
    · simp only [hk, if_false, child]
      cases hj : arrayIndex? k with
      | none => rfl
      | some j =>
        have hj0 : j ≠ 0 := by
          rintro rfl
          exact hk (arrayIndex?_injective hj hidx)
        obtain ⟨j, rfl⟩ := Nat.exists_eq_succ_of_ne_zero hj0
        simp

theorem removeIn_child {fields : List (JsString × FabricValue)}
    {c' : FabricValue} (h : removeIn path (.record fields) = .ok c') (k : JsString) :
    child c' k = if k = lastKey path then none else child (.record fields) k := by
  simp only [removeIn] at h
  split at h
  · cases h
    simp only [child, Fields.get?_erase]
    by_cases hk : k = lastKey path
    · simp [hk]
    · simp [hk, Ne.symm hk]
  · cases h

theorem incrementIn_child {next : JsNumber} {c c' : FabricValue}
    (h : incrementIn path next c = .ok c') (k : JsString) :
    child c' k = if k = lastKey path then some (.number next) else child c k := by
  cases c with
  | array slots =>
    obtain ⟨i, hi, h⟩ := Except.bind_ok_iff.1 h
    obtain ⟨hidx, -⟩ := parseArrayInsertIndex_ok hi
    cases h
    by_cases hk : k = lastKey path
    · subst hk; simp [child_array hidx, setSlot_get]
    · simp only [hk, if_false, child]
      cases hj : arrayIndex? k with
      | none => rfl
      | some j =>
        have hne : j ≠ i := by
          rintro rfl
          exact hk (arrayIndex?_injective hj hidx)
        simp [setSlot_get, hne]
  | record fields =>
    simp only [incrementIn, Except.ok.injEq] at h
    subst h
    simp only [child, Fields.get?_set]
    by_cases hk : k = lastKey path
    · simp [hk]
    · simp [hk, Ne.symm hk]
  | _ => simp [incrementIn] at h

end Patch

namespace PatchOp

def isArrayValue : FabricValue → Bool
  | .array _ => true
  | _ => false

/-- The path's last segment addresses into an array the document holds. -/
def indexesArray (doc : FabricValue) (path : ValuePath) : Bool :=
  path ≠ [] && ((valueAt doc path.dropLast).map isArrayValue).getD false

/-- The operations whose leaf paths say less than they change: an `add`, `remove`
or `move` one of whose pointers has a last segment that indexes an array the
document holds. -/
def indexesExistingArray (doc : FabricValue) (op : PatchOp) : Bool :=
  op.isStructural && op.pointers.any fun pointer =>
    match parsePointer pointer with
    | .ok path => indexesArray doc path
    | .error _ => false

/-- An `add`, `remove` or `move` whose last segment is the append marker. -/
def marksAppend (op : PatchOp) : Bool :=
  op.isStructural && op.pointers.any fun pointer =>
    match parsePointer pointer with
    | .ok path => decide (path.getLast? = some appendMarker)
    | .error _ => false

/-- Indicates whether the operation shifts the elements of an array by index. -/
def shiftsElements (doc : FabricValue) (op : PatchOp) : Bool :=
  op.indexesExistingArray doc || op.marksAppend

end PatchOp

namespace Patch

open PatchOp

variable {q p : ValuePath} {root root' : FabricValue}

theorem overlap_ne_nil (hp : pathsOverlap q p = false) : q ≠ [] := by
  rintro rfl; simp [pathsOverlap_nil] at hp

theorem replaceAtPath_frame {value : FabricValue}
    (h : replaceAtPath root q value = .ok root') (hp : pathsOverlap q p = false) :
    valueAt root' p = valueAt root p := by
  have hq := overlap_ne_nil hp
  simp only [replaceAtPath, hq, if_false] at h
  apply editParent_frame hq h hp
  intro c c' hf _ k _ hk
  simp [replaceIn_child hf, hk]

/-- An addition is local where its container is no array the document holds and
its last segment is an index or a key. -/
theorem addAtPath_frame {value : FabricValue}
    (h : addAtPath root q value = .ok root') (hp : pathsOverlap q p = false)
    (harr : indexesArray root q = false) (hmark : q.getLast? ≠ some appendMarker) :
    valueAt root' p = valueAt root p := by
  have hq := overlap_ne_nil hp
  simp only [addAtPath, hq, if_false] at h
  obtain ⟨-, h⟩ := Except.check_ok_iff.1 h
  have hlast : lastKey q ≠ appendMarker := by
    intro he
    apply hmark
    rw [path_split hq, he]; simp
  apply editParent_frame hq h hp
  intro c c' hf hc k _ hk
  have hcase : (∃ fields, c = .record fields) ∨ (c = .array [] ∧ lastKey q ≠ appendMarker) := by
    rcases hc with hc | ⟨nextKey, hn, -, rfl⟩
    · cases c with
      | record fields => exact .inl ⟨fields, rfl⟩
      | array slots => simp [indexesArray, hq, hc, isArrayValue] at harr
      | _ => simp [addIn] at hf
    · unfold createMissingContainer
      split
      · exact .inr ⟨rfl, hlast⟩
      · exact .inl ⟨[], rfl⟩
  simp [addIn_child hf hcase, hk]

theorem removeAtPath_frame (h : removeAtPath root q = .ok root') (hp : pathsOverlap q p = false)
    (harr : indexesArray root q = false) : valueAt root' p = valueAt root p := by
  have hq := overlap_ne_nil hp
  simp only [removeAtPath, hq, if_false] at h
  apply editParent_frame hq h hp
  intro c c' hf hc k _ hk
  rcases hc with hc | ⟨nextKey, hn, -⟩
  · cases c with
    | record fields => simp [removeIn_child hf, hk]
    | array slots => simp [indexesArray, hq, hc, isArrayValue] at harr
    | _ => simp [removeIn] at hf
  · cases hn

theorem setChild_isArray {full : ValuePath} {v c v' : FabricValue} {key : JsString}
    (h : setChild full v key c = .ok v') : isArrayValue v' = isArrayValue v := by
  cases v with
  | array slots =>
    simp only [setChild] at h
    split at h
    · cases h; rfl
    · cases h
  | record fields => cases h; rfl
  | _ => simp [setChild] at h

/-- An edit whose leaf function keeps arrays arrays does so too. -/
theorem editSpine_isArray {full : ValuePath} {create : Option JsString}
    {f : FabricValue → Result} {v v' : FabricValue} {spine : ValuePath}
    (h : editSpine full create f v spine = .ok v')
    (hf : ∀ c c', f c = .ok c' → isArrayValue c' = isArrayValue c) :
    isArrayValue v' = isArrayValue v := by
  cases spine with
  | nil =>
    simp only [editSpine] at h
    split at h
    · exact hf _ _ h
    · cases h
  | cons key rest =>
    rcases editSpine_cons h with ⟨_, _, -, -, hs⟩ | ⟨_, _, -, -, -, hs⟩ <;>
      exact setChild_isArray hs

theorem removeIn_isArray {path : ValuePath} {c c' : FabricValue}
    (h : removeIn path c = .ok c') : isArrayValue c' = isArrayValue c := by
  cases c with
  | array slots =>
    obtain ⟨i, -, h⟩ := Except.bind_ok_iff.1 h
    cases h; rfl
  | record fields =>
    simp only [removeIn] at h
    split at h
    · cases h; rfl
    · cases h
  | _ => simp [removeIn] at h

/-- Removing a member elsewhere turns no other value into an array. -/
theorem removeAtPath_indexesArray {source path : ValuePath}
    (h : removeAtPath root source = .ok root') (hs : source ≠ [])
    (hpre : isStrictPrefixPath source path = false) (harr : indexesArray root source = false)
    (hpath : indexesArray root path = false) : indexesArray root' path = false := by
  by_cases hnil : path = []
  · simp [indexesArray, hnil]
  by_cases hov : pathsOverlap source path.dropLast = true
  · -- `path.dropLast` lies on the spine of the removal
    have hsp : isPrefixPath source path.dropLast = false := by
      by_contra hc
      obtain ⟨r, hr⟩ := (isPrefixPath_iff _ _).1 (by simpa using hc)
      have hfull : path = source ++ (r ++ [lastKey path]) := by
        rw [← List.append_assoc, ← hr, ← path_split hnil]
      rw [hfull] at hpre
      simp [isStrictPrefixPath] at hpre
    have hps : isPrefixPath path.dropLast source = true := by
      simpa [pathsOverlap, hsp] using hov
    obtain ⟨r, hr⟩ := (isPrefixPath_iff _ _).1 hps
    have hrne : r ≠ [] := by
      rintro rfl
      rw [List.append_nil] at hr
      simp [hr] at hsp
    have hspine : source.dropLast = path.dropLast ++ r.dropLast := by
      rw [hr, List.dropLast_append_of_ne_nil hrne]
    simp only [removeAtPath, hs, if_false] at h
    rw [hspine] at h
    obtain ⟨w, hw, hv⟩ := editSpine_below h
    cases hc : valueAt root path.dropLast with
    | none => rw [hc] at hw; simp [editBelow] at hw
    | some c =>
      rw [hc] at hw
      have hkind := editSpine_isArray hw fun _ _ => removeIn_isArray
      simpa [indexesArray, hnil, hv, hc, hkind] using hpath
  · have hframe := removeAtPath_frame h (by simpa using hov) harr
    simpa [indexesArray, hframe] using hpath

theorem moveValue_frame {source path : ValuePath}
    (h : moveValue root source path = .ok root') (hs : pathsOverlap source p = false)
    (hp : pathsOverlap path p = false) (hsa : indexesArray root source = false)
    (hpa : indexesArray root path = false) (hmark : path.getLast? ≠ some appendMarker) :
    valueAt root' p = valueAt root p := by
  have hsne := overlap_ne_nil hs
  simp only [moveValue, hsne, if_false] at h
  split at h
  · cases h
  · rename_i hpre
    obtain ⟨extracted, -, h⟩ := Except.bind_ok_iff.1 h
    obtain ⟨removed, hrem, h⟩ := Except.bind_ok_iff.1 h
    have hpa' := removeAtPath_indexesArray hrem hsne (by simpa using hpre) hsa hpa
    rw [addAtPath_frame h hp hpa' hmark, removeAtPath_frame hrem hs hsa]

theorem tailAtPath_frame {op : JsString}
    {extend : Slots → Slots} (h : tailAtPath root q op extend = .ok root')
    (hp : pathsOverlap q p = false) : valueAt root' p = valueAt root p := by
  have hq := overlap_ne_nil hp
  obtain ⟨-, h⟩ := Except.check_ok_iff.1 h
  split at h
  · apply editParent_frame hq h hp
    intro c c' hf _ k _ hk
    simp [replaceIn_child hf, hk]
  · exact editSpine_outside h hp

theorem removeByValueAtPath_frame {value : FabricValue}
    (h : removeByValueAtPath root q value = .ok root') (hp : pathsOverlap q p = false) :
    valueAt root' p = valueAt root p := by
  simp only [removeByValueAtPath] at h
  split at h
  · split at h
    · exact editSpine_outside h hp
    · cases h; rfl
  · cases h; rfl

theorem incrementAtPath_edit {amount : JsNumber} (h : incrementAtPath root q amount = .ok root') :
    q ≠ [] ∧ ∃ current, editSpine q (some (lastKey q)) (incrementIn q (current.add amount)) root
      q.dropLast = .ok root' ∧
      ((valueAt root q).getD .undefined = .number current ∨
        ((valueAt root q).getD .undefined = .undefined ∧ current = .finite 0)) := by
  simp only [incrementAtPath] at h
  split at h
  · cases h
  · rename_i hq
    refine ⟨hq, ?_⟩
    split at h
    · cases h
    · split at h
      · rename_i n hn
        exact ⟨n, (Except.check_ok_iff.1 h).2, .inl hn⟩
      · rename_i hn
        exact ⟨_, (Except.check_ok_iff.1 h).2, .inr ⟨hn, rfl⟩⟩
      · cases h

theorem incrementAtPath_frame {amount : JsNumber}
    (h : incrementAtPath root q amount = .ok root') (hp : pathsOverlap q p = false) :
    valueAt root' p = valueAt root p := by
  obtain ⟨hq, current, h, -⟩ := incrementAtPath_edit h
  apply editParent_frame hq h hp
  intro c c' hf _ k _ hk
  simp [incrementIn_child hf, hk]

end Patch

open PatchOp in
/-- What the rule says of each path of an operation it concerns. -/
theorem structural_clear {op : PatchOp} {root : FabricValue} {pointer : JsString} {q : ValuePath}
    (hrule : op.shiftsElements root = false) (hstr : op.isStructural = true)
    (hmem : pointer ∈ op.pointers) (hq : parsePointer pointer = .ok q) :
    indexesArray root q = false ∧ q.getLast? ≠ some appendMarker := by
  simp only [shiftsElements, indexesExistingArray, marksAppend, hstr, Bool.true_and,
    Bool.or_eq_false_iff, List.any_eq_false] at hrule
  have h1 := hrule.1 pointer hmem
  have h2 := hrule.2 pointer hmem
  simp only [hq] at h1 h2
  exact ⟨by simpa using h1, by simpa using h2⟩

theorem touchedLeafPaths_mem {op : PatchOp} {leaves : List ValuePath} {pointer : JsString}
    {path : ValuePath} (h : touchedLeafPathsForPatch op = .ok leaves)
    (hmem : pointer ∈ op.pointers) (hpath : parsePointer pointer = .ok path) :
    path ∈ leaves :=
  List.mapM_ok_mem h hmem hpath

open Patch PatchOp in
/-- An operation that shifts no elements changes nothing at a path that none of
its touched paths overlaps. -/
theorem applyOp_frame {op : PatchOp} {root root' : FabricValue} {leaves : List ValuePath}
    {p : ValuePath} (h : applyOp root op = .ok root')
    (hleaves : touchedLeafPathsForPatch op = .ok leaves)
    (hp : ∀ q ∈ leaves, pathsOverlap q p = false) (hrule : op.shiftsElements root = false) :
    valueAt root' p = valueAt root p := by
  have hov : ∀ pointer ∈ op.pointers, ∀ q, parsePointer pointer = .ok q →
      pathsOverlap q p = false :=
    fun pointer hmem q hq => hp q (touchedLeafPaths_mem hleaves hmem hq)
  have hshift : op.isStructural = true → ∀ pointer ∈ op.pointers, ∀ q,
      parsePointer pointer = .ok q →
      indexesArray root q = false ∧ q.getLast? ≠ some appendMarker :=
    fun hstr pointer hmem q hq => structural_clear hrule hstr hmem hq
  cases op with
  | replace path value =>
    obtain ⟨q, hq, h⟩ := Except.bind_ok_iff.1 h
    exact replaceAtPath_frame h (hov path (by simp [pointers]) q hq)
  | add path value =>
    obtain ⟨q, hq, h⟩ := Except.bind_ok_iff.1 h
    obtain ⟨ha, hm⟩ := hshift rfl path (by simp [pointers]) q hq
    exact addAtPath_frame h (hov path (by simp [pointers]) q hq) ha hm
  | remove path =>
    obtain ⟨q, hq, h⟩ := Except.bind_ok_iff.1 h
    obtain ⟨ha, -⟩ := hshift rfl path (by simp [pointers]) q hq
    exact removeAtPath_frame h (hov path (by simp [pointers]) q hq) ha
  | move source path =>
    obtain ⟨s, hs, h⟩ := Except.bind_ok_iff.1 h
    obtain ⟨q, hq, h⟩ := Except.bind_ok_iff.1 h
    obtain ⟨hsa, -⟩ := hshift rfl source (by simp [pointers]) s hs
    obtain ⟨hqa, hqm⟩ := hshift rfl path (by simp [pointers]) q hq
    exact moveValue_frame h (hov source (by simp [pointers]) s hs)
      (hov path (by simp [pointers]) q hq) hsa hqa hqm
  | splice path index remove insert =>
    obtain ⟨q, hq, h⟩ := Except.bind_ok_iff.1 h
    exact editSpine_outside h (hov path (by simp [pointers]) q hq)
  | append path values createsKey =>
    obtain ⟨q, hq, h⟩ := Except.bind_ok_iff.1 h
    exact tailAtPath_frame h (hov path (by simp [pointers]) q hq)
  | addUnique path values createsKey =>
    obtain ⟨q, hq, h⟩ := Except.bind_ok_iff.1 h
    exact tailAtPath_frame h (hov path (by simp [pointers]) q hq)
  | removeByValue path value =>
    obtain ⟨q, hq, h⟩ := Except.bind_ok_iff.1 h
    exact removeByValueAtPath_frame h (hov path (by simp [pointers]) q hq)
  | increment path amount createsKey =>
    obtain ⟨q, hq, h⟩ := Except.bind_ok_iff.1 h
    exact incrementAtPath_frame h (hov path (by simp [pointers]) q hq)
