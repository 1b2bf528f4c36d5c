import CommonFabric.PatchFrame

/-!
# One patch on two documents

Two documents that hold the same value at a path hold the same value there after the
same operation, as long as the operation moves nothing and edits no list above the path:
what it leaves at the path is decided by what stood there.
-/

namespace PatchOp

def isMove : PatchOp → Bool
  | .move .. => true
  | _ => false

/-- The operations on an array as a whole. -/
def isListEdit : PatchOp → Bool
  | .splice .. => true
  | .append .. => true
  | .addUnique .. => true
  | .removeByValue .. => true
  | _ => false

/-- The operation edits an array that the path passes through. -/
def editsListAbove (path : ValuePath) (op : PatchOp) : Bool :=
  op.isListEdit && op.pointers.any fun pointer =>
    match parsePointer pointer with
    | .ok target => Patch.isStrictPrefixPath target path
    | .error _ => false

end PatchOp

namespace Patch

open PatchOp

variable {v w v' w' : FabricValue} {p q : ValuePath}

/-- The target is at or above the path, strictly below it, or beside it. -/
theorem target_cases (q p : ValuePath) :
    (∃ r, p = q ++ r) ∨ (∃ r, r ≠ [] ∧ q = p ++ r) ∨ pathsOverlap q p = false := by
  by_cases hqp : isPrefixPath q p = true
  · exact .inl ((isPrefixPath_iff _ _).1 hqp)
  by_cases hpq : isPrefixPath p q = true
  · obtain ⟨r, hr⟩ := (isPrefixPath_iff _ _).1 hpq
    refine .inr (.inl ⟨r, ?_, hr⟩)
    rintro rfl
    exact hqp (by simp [hr])
  · exact .inr (.inr (by simp [pathsOverlap, hqp, hpq]))

/-- The path a target is at or above is the target itself, unless strictly below it. -/
theorem eq_of_not_strict {r : ValuePath} (h : isStrictPrefixPath q (q ++ r) = false) :
    r = [] := by
  cases r with
  | nil => rfl
  | cons k r => simp [isStrictPrefixPath] at h

/-- Where the target lies strictly below the path, so does its container, or is the path. -/
theorem dropLast_below {r : ValuePath} (hr : r ≠ []) (hq : q = p ++ r) :
    q.dropLast = p ++ r.dropLast := by
  rw [hq, List.dropLast_append_of_ne_nil hr]

theorem valueAt_below (h : valueAt v p = valueAt w p) (r : ValuePath) :
    valueAt v (p ++ r) = valueAt w (p ++ r) := by
  rw [valueAt_append, valueAt_append, h]

variable {create : Option JsString} {f : FabricValue → Result} {value : FabricValue}

/-- An edit whose spine passes through the path. -/
theorem editSpine_agree {full rest : ValuePath}
    (hv : editSpine full create f v (p ++ rest) = .ok v')
    (hw : editSpine full create f w (p ++ rest) = .ok w') (h : valueAt v p = valueAt w p) :
    valueAt v' p = valueAt w' p := by
  obtain ⟨a, ha, hva⟩ := editSpine_below hv
  obtain ⟨b, hb, hwb⟩ := editSpine_below hw
  rw [h, hb] at ha
  cases ha
  rw [hva, hwb]

/-- An edit of the container above the path that puts a child of its own at its key. -/
theorem editParent_at {full : ValuePath} (child' : Option FabricValue) (hq : q ≠ [])
    (hv : editSpine full create f v q.dropLast = .ok v') (hf : ∀ c c', f c = .ok c' →
      (valueAt v q.dropLast = some c ∨
        ∃ nextKey, create = some nextKey ∧ c = createMissingContainer nextKey) →
      child c' (lastKey q) = child') (r : ValuePath) :
    valueAt v' (q ++ r) = child'.bind fun c => valueAt c r := by
  obtain ⟨c, c', hc, hcontainer, -, hafter⟩ := editSpine_children hv
  replace hcontainer : valueAt v q.dropLast = some c ∨
      ∃ nextKey, create = some nextKey ∧ c = createMissingContainer nextKey :=
    hcontainer.imp_right (Exists.imp fun _ h => ⟨h.1, h.2.2⟩)
  have hsplit : q ++ r = q.dropLast ++ lastKey q :: r := by
    conv_lhs => rw [path_split hq]
    simp
  rw [hsplit, hafter, valueAt_cons, hf c c' hc hcontainer]

/-- An edit of the target's container that puts the same child at the target in both. -/
theorem editParent_agree {full : ValuePath} {child' : Option FabricValue} (hq : q ≠ [])
    (hv : editSpine full create f v q.dropLast = .ok v')
    (hw : editSpine full create f w q.dropLast = .ok w') (hfv : ∀ c c', f c = .ok c' →
      (valueAt v q.dropLast = some c ∨
        ∃ nextKey, create = some nextKey ∧ c = createMissingContainer nextKey) →
      child c' (lastKey q) = child') (hfw : ∀ c c', f c = .ok c' → (valueAt w q.dropLast = some c ∨
        ∃ nextKey, create = some nextKey ∧ c = createMissingContainer nextKey) →
      child c' (lastKey q) = child')
    (hov : pathsOverlap q p = true) (h : valueAt v p = valueAt w p) :
    valueAt v' p = valueAt w' p := by
  rcases target_cases q p with ⟨r, rfl⟩ | ⟨r, hr, hqr⟩ | hnot
  · rw [editParent_at _ hq hv hfv, editParent_at _ hq hw hfw]
  · rw [dropLast_below hr hqr] at hv hw
    exact editSpine_agree hv hw h
  · rw [hov] at hnot; cases hnot

/-- A target that overlaps the path and is not strictly above it is the path or below it. -/
theorem target_below (hov : pathsOverlap q p = true) (habove : isStrictPrefixPath q p = false) :
    ∃ r, q = p ++ r := by
  rcases target_cases q p with ⟨r, rfl⟩ | ⟨r, -, hqr⟩ | hnot
  · exact ⟨[], by rw [eq_of_not_strict habove, List.append_nil, List.append_nil]⟩
  · exact ⟨r, hqr⟩
  · rw [hov] at hnot; cases hnot

theorem replaceAtPath_agree (hv : replaceAtPath v q value = .ok v')
    (hw : replaceAtPath w q value = .ok w') (h : valueAt v p = valueAt w p) :
    valueAt v' p = valueAt w' p := by
  by_cases hov : pathsOverlap q p = true
  · by_cases hq : q = []
    · simp only [replaceAtPath, hq, if_true] at hv hw
      cases hv; cases hw; rfl
    · simp only [replaceAtPath, hq, if_false] at hv hw
      have hf : ∀ c c', replaceIn q value c = .ok c' → child c' (lastKey q) = some value :=
        fun c c' hc => by simp [replaceIn_child hc]
      exact editParent_agree hq hv hw (fun c c' hc _ => hf c c' hc) (fun c c' hc _ => hf c c' hc)
        hov h
  · have hov : pathsOverlap q p = false := by simpa using hov
    rw [replaceAtPath_frame hv hov, replaceAtPath_frame hw hov, h]

/-- The container an addition finds or creates is no array with elements to shift. -/
theorem addIn_at {c c' : FabricValue} (hq : q ≠ []) (hc : addIn q value c = .ok c')
    (harr : indexesArray v q = false) (hmark : q.getLast? ≠ some appendMarker)
    (hcontainer : valueAt v q.dropLast = some c ∨
      ∃ nextKey, some (lastKey q) = some nextKey ∧ c = createMissingContainer nextKey) :
    child c' (lastKey q) = some value := by
  have hlast : lastKey q ≠ appendMarker := fun he => hmark (by rw [path_split hq, he]; simp)
  have hcase : (∃ fields, c = .record fields) ∨ (c = .array [] ∧ lastKey q ≠ appendMarker) := by
    rcases hcontainer with hfound | ⟨nextKey, -, rfl⟩
    · cases c with
      | record fields => exact .inl ⟨fields, rfl⟩
      | array slots => simp [indexesArray, hq, hfound, isArrayValue] at harr
      | _ => simp [addIn] at hc
    · unfold createMissingContainer
      split
      · exact .inr ⟨rfl, hlast⟩
      · exact .inl ⟨[], rfl⟩
  simp [addIn_child hc hcase]

theorem addAtPath_agree (hv : addAtPath v q value = .ok v')
    (hw : addAtPath w q value = .ok w') (hav : indexesArray v q = false)
    (haw : indexesArray w q = false) (hmark : q.getLast? ≠ some appendMarker)
    (h : valueAt v p = valueAt w p) : valueAt v' p = valueAt w' p := by
  by_cases hov : pathsOverlap q p = true
  · by_cases hq : q = []
    · simp only [addAtPath, hq, if_true] at hv hw
      cases hv; cases hw; rfl
    · simp only [addAtPath, hq, if_false] at hv hw
      obtain ⟨-, hv⟩ := Except.check_ok_iff.1 hv
      obtain ⟨-, hw⟩ := Except.check_ok_iff.1 hw
      exact editParent_agree hq hv hw (fun c c' hc => addIn_at hq hc hav hmark)
        (fun c c' hc => addIn_at hq hc haw hmark) hov h
  · have hov : pathsOverlap q p = false := by simpa using hov
    rw [addAtPath_frame hv hov hav hmark, addAtPath_frame hw hov haw hmark, h]

theorem removeIn_at {c c' : FabricValue} (hq : q ≠ []) (hc : removeIn q c = .ok c')
    (harr : indexesArray v q = false)
    (hcontainer : valueAt v q.dropLast = some c ∨
      ∃ nextKey, (none : Option JsString) = some nextKey ∧ c = createMissingContainer nextKey) :
    child c' (lastKey q) = none := by
  rcases hcontainer with hfound | ⟨nextKey, hnone, -⟩
  · cases c with
    | record fields => simp [removeIn_child hc]
    | array slots => simp [indexesArray, hq, hfound, isArrayValue] at harr
    | _ => simp [removeIn] at hc
  · cases hnone

theorem removeAtPath_agree (hv : removeAtPath v q = .ok v') (hw : removeAtPath w q = .ok w')
    (hav : indexesArray v q = false) (haw : indexesArray w q = false)
    (h : valueAt v p = valueAt w p) : valueAt v' p = valueAt w' p := by
  by_cases hov : pathsOverlap q p = true
  · by_cases hq : q = []
    · simp [removeAtPath, hq] at hv
    · simp only [removeAtPath, hq, if_false] at hv hw
      exact editParent_agree hq hv hw (fun c c' hc => removeIn_at hq hc hav)
        (fun c c' hc => removeIn_at hq hc haw) hov h
  · have hov : pathsOverlap q p = false := by simpa using hov
    rw [removeAtPath_frame hv hov hav, removeAtPath_frame hw hov haw, h]

theorem spliceAtPath_agree {index remove : Int} {insert : List FabricValue}
    (hv : spliceAtPath v q index remove insert = .ok v')
    (hw : spliceAtPath w q index remove insert = .ok w')
    (habove : isStrictPrefixPath q p = false) (h : valueAt v p = valueAt w p) :
    valueAt v' p = valueAt w' p := by
  by_cases hov : pathsOverlap q p = true
  · obtain ⟨r, rfl⟩ := target_below hov habove
    exact editSpine_agree hv hw h
  · have hov : pathsOverlap q p = false := by simpa using hov
    rw [editSpine_outside hv hov, editSpine_outside hw hov, h]

theorem tailAtPath_agree {op : JsString} {extend : Slots → Slots}
    (hv : tailAtPath v q op extend = .ok v') (hw : tailAtPath w q op extend = .ok w')
    (habove : isStrictPrefixPath q p = false) (h : valueAt v p = valueAt w p) :
    valueAt v' p = valueAt w' p := by
  by_cases hov : pathsOverlap q p = true
  · obtain ⟨r, hr⟩ := target_below hov habove
    have hsame : valueAt v q = valueAt w q := by rw [hr]; exact valueAt_below h r
    obtain ⟨-, hv⟩ := Except.check_ok_iff.1 hv
    obtain ⟨-, hw⟩ := Except.check_ok_iff.1 hw
    rw [← hsame] at hw
    split at hv
    · rename_i hundefined
      rw [if_pos hundefined] at hw
      have hf : ∀ c c', fillUndefined q extend c = .ok c' →
          child c' (lastKey q) = some (.array (extend [])) :=
        fun c c' hc => by simp [replaceIn_child hc]
      exact editParent_agree hundefined.1 hv hw (fun c c' hc _ => hf c c' hc)
        (fun c c' hc _ => hf c c' hc) hov h
    · rename_i hundefined
      rw [if_neg hundefined] at hw
      rw [hr] at hv hw
      exact editSpine_agree hv hw h
  · have hov : pathsOverlap q p = false := by simpa using hov
    rw [tailAtPath_frame hv hov, tailAtPath_frame hw hov, h]

theorem removeByValueAtPath_agree
    (hv : removeByValueAtPath v q value = .ok v') (hw : removeByValueAtPath w q value = .ok w')
    (habove : isStrictPrefixPath q p = false) (h : valueAt v p = valueAt w p) :
    valueAt v' p = valueAt w' p := by
  by_cases hov : pathsOverlap q p = true
  · obtain ⟨r, hr⟩ := target_below hov habove
    have hsame : valueAt v q = valueAt w q := by rw [hr]; exact valueAt_below h r
    unfold removeByValueAtPath at hv hw
    rw [← hsame] at hw
    split at hv
    · rename_i slots hslots
      simp only [hslots] at hw
      split at hv
      · rename_i hany
        rw [if_pos hany, hr] at hw
        rw [hr] at hv
        exact editSpine_agree hv hw h
      · rename_i hany
        rw [if_neg hany] at hw
        cases hv; cases hw; exact h
    · rename_i hnot
      split at hw
      · rename_i slots hslots
        exact absurd hslots (hnot slots)
      · cases hv; cases hw; exact h
  · have hov : pathsOverlap q p = false := by simpa using hov
    rw [removeByValueAtPath_frame hv hov, removeByValueAtPath_frame hw hov, h]

/-- An increment leaves a number, in which nothing stands below. -/
theorem incrementAtPath_at {amount : JsNumber} (hv : incrementAtPath v q amount = .ok v') :
    ∃ current : JsNumber, ((valueAt v q).getD .undefined = .number current ∨
        ((valueAt v q).getD .undefined = .undefined ∧ current = .finite 0)) ∧
      ∀ r, valueAt v' (q ++ r) = valueAt (.number (current.add amount)) r := by
  obtain ⟨hq, current, hedit, hcurrent⟩ := incrementAtPath_edit hv
  refine ⟨current, hcurrent, fun r => ?_⟩
  rw [editParent_at (some (.number (current.add amount))) hq hedit
    (fun c c' hc _ => by simp [incrementIn_child hc])]
  rfl

theorem incrementAtPath_agree {amount : JsNumber} (hv : incrementAtPath v q amount = .ok v')
    (hw : incrementAtPath w q amount = .ok w') (h : valueAt v p = valueAt w p) :
    valueAt v' p = valueAt w' p := by
  have hcurrent : ∀ {a b : JsNumber}, valueAt v q = valueAt w q →
      ((valueAt v q).getD .undefined = .number a ∨
        ((valueAt v q).getD .undefined = .undefined ∧ a = .finite 0)) →
      ((valueAt w q).getD .undefined = .number b ∨
        ((valueAt w q).getD .undefined = .undefined ∧ b = .finite 0)) → a = b := by
    intro a b hsame ha hb
    rw [hsame] at ha
    rcases ha with ha | ⟨ha, rfl⟩
    · rcases hb with hb | ⟨hb, rfl⟩ <;> rw [ha] at hb <;> cases hb
      rfl
    · rcases hb with hb | ⟨hb, rfl⟩
      · rw [ha] at hb; cases hb
      · rfl
  rcases target_cases q p with ⟨r, rfl⟩ | ⟨r, hr, hqr⟩ | hnot
  · obtain ⟨a, ha, hva⟩ := incrementAtPath_at hv
    obtain ⟨b, hb, hwb⟩ := incrementAtPath_at hw
    rw [hva, hwb]
    cases r with
    | nil => rw [List.append_nil] at h; rw [hcurrent h ha hb]
    | cons k r => rfl
  · obtain ⟨-, a, hva, ha⟩ := incrementAtPath_edit hv
    obtain ⟨-, b, hwb, hb⟩ := incrementAtPath_edit hw
    have hsame : valueAt v q = valueAt w q := by rw [hqr]; exact valueAt_below h r
    rw [← hcurrent hsame ha hb] at hwb
    rw [dropLast_below hr hqr] at hva hwb
    exact editSpine_agree hva hwb h
  · rw [incrementAtPath_frame hv hnot, incrementAtPath_frame hw hnot, h]

end Patch

open Patch PatchOp in
/-- Documents that hold the same at a path hold the same there after an operation that
moves nothing, edits no list above the path and shifts no element of an array. -/
theorem applyOp_agree {op : PatchOp} {v w v' w' : FabricValue} {p : ValuePath}
    (hv : applyOp v op = .ok v') (hw : applyOp w op = .ok w') (hmove : op.isMove = false)
    (habove : op.editsListAbove p = false) (hkv : op.shiftsElements v = false)
    (hkw : op.shiftsElements w = false) (h : valueAt v p = valueAt w p) :
    valueAt v' p = valueAt w' p := by
  have hlist : op.isListEdit = true → ∀ pointer ∈ op.pointers, ∀ q,
      parsePointer pointer = .ok q → isStrictPrefixPath q p = false := by
    intro hedit pointer hmem q hq
    simp only [editsListAbove, hedit, Bool.true_and, List.any_eq_false] at habove
    simpa [hq] using habove pointer hmem
  cases op with
  | replace path value =>
    obtain ⟨q, hq, hv⟩ := Except.bind_ok_iff.1 hv
    simp only [applyOp, hq, Except.ok_bind] at hw
    exact replaceAtPath_agree hv hw h
  | add path value =>
    obtain ⟨q, hq, hv⟩ := Except.bind_ok_iff.1 hv
    simp only [applyOp, hq, Except.ok_bind] at hw
    obtain ⟨hav, hmark⟩ := structural_clear hkv rfl (by simp [pointers]) hq
    obtain ⟨haw, -⟩ := structural_clear hkw rfl (by simp [pointers]) hq
    exact addAtPath_agree hv hw hav haw hmark h
  | remove path =>
    obtain ⟨q, hq, hv⟩ := Except.bind_ok_iff.1 hv
    simp only [applyOp, hq, Except.ok_bind] at hw
    obtain ⟨hav, -⟩ := structural_clear hkv rfl (by simp [pointers]) hq
    obtain ⟨haw, -⟩ := structural_clear hkw rfl (by simp [pointers]) hq
    exact removeAtPath_agree hv hw hav haw h
  | move source path => cases hmove
  | splice path index remove insert =>
    obtain ⟨q, hq, hv⟩ := Except.bind_ok_iff.1 hv
    simp only [applyOp, hq, Except.ok_bind] at hw
    exact spliceAtPath_agree hv hw (hlist rfl path (by simp [pointers]) q hq) h
  | append path values createsKey =>
    obtain ⟨q, hq, hv⟩ := Except.bind_ok_iff.1 hv
    simp only [applyOp, hq, Except.ok_bind] at hw
    exact tailAtPath_agree hv hw (hlist rfl path (by simp [pointers]) q hq) h
  | addUnique path values createsKey =>
    obtain ⟨q, hq, hv⟩ := Except.bind_ok_iff.1 hv
    simp only [applyOp, hq, Except.ok_bind] at hw
    exact tailAtPath_agree hv hw (hlist rfl path (by simp [pointers]) q hq) h
  | removeByValue path value =>
    obtain ⟨q, hq, hv⟩ := Except.bind_ok_iff.1 hv
    simp only [applyOp, hq, Except.ok_bind] at hw
    exact removeByValueAtPath_agree hv hw (hlist rfl path (by simp [pointers]) q hq) h
  | increment path amount createsKey =>
    obtain ⟨q, hq, hv⟩ := Except.bind_ok_iff.1 hv
    simp only [applyOp, hq, Except.ok_bind] at hw
    exact incrementAtPath_agree hv hw h
