import CommonFabric.PatchOverlap

/-!
# The shapes a patch changes

A shape read observes of the value at a path its kind, a plain object's keys and a list's length.
An operation that writes below containers the document lacks creates them, so that a key appears
higher up than the path it names. Where no operation touches a path, nothing goes away there: a
shape only ever grows.
-/

inductive Shape where
  | scalar
  | list (length : Nat)
  | record (hasKey : JsString → Bool)

def shape : FabricValue → Shape
  | .array slots => .list slots.length
  | .record fields => .record fun key => (Fields.get? fields key).isSome
  | _ => .scalar

/-- The shape at a path, or `none` where the path is missing. -/
def shapeAt (doc : FabricValue) (path : ValuePath) : Option Shape := (valueAt doc path).map shape

namespace Shape

/-- What may become of a shape that nothing touches. -/
inductive Below : Option Shape → Option Shape → Prop where
  | same (s : Option Shape) : Below s s
  | appears (t : Option Shape) : Below none t
  | gains {h h' : JsString → Bool} (keys : ∀ k, h k = true → h' k = true) :
    Below (some (.record h)) (some (.record h'))

theorem Below.trans {s t u : Option Shape} (h : Below s t) (h' : Below t u) : Below s u := by
  cases h with
  | same => exact h'
  | appears => exact .appears u
  | gains keys =>
    cases h' with
    | same => exact .gains keys
    | gains keys' => exact .gains fun k hk => keys' k (keys k hk)

theorem Below.antisymm {s t : Option Shape} (h : Below s t) (h' : Below t s) : s = t := by
  cases h with
  | same => rfl
  | appears => cases h' <;> rfl
  | gains keys =>
    cases h' with
    | same => rfl
    | gains keys' =>
      congr 2
      funext k
      rw [Bool.eq_iff_iff]
      exact ⟨keys k, keys' k⟩

structure Grows (s t : Option Shape) : Prop where
  below : Below s t
  changed : s ≠ t

/-- What has grown stays different as it goes on growing. -/
theorem Grows.then {s t u : Option Shape} (h : Grows s t) (h' : Below t u) : s ≠ u := by
  intro heq
  subst heq
  exact h.changed (h.below.antisymm h')

theorem Below.then {s t u : Option Shape} (h : Below s t) (h' : t ≠ u) (hu : Below t u) :
    s ≠ u := by
  intro heq
  subst heq
  exact h' (hu.antisymm h)

end Shape

open Patch Shape

variable {full q path p : ValuePath} {v doc doc' : FabricValue} {create : Option JsString}
  {f : FabricValue → Result} {op : PatchOp} {ops : List PatchOp}

theorem shape_setChild {c v' d : FabricValue} {key : JsString}
    (h : setChild full v key c = .ok v') (hd : child v key = some d) : shape v' = shape v := by
  cases v with
  | array slots =>
    simp only [setChild] at h
    split at h
    · rename_i i hi
      cases h
      rw [child_array (parseArrayIndex_ok hi)] at hd
      have hlt : i < slots.length := by
        by_contra hge
        simp [List.getElem?_eq_none (Nat.le_of_not_lt hge)] at hd
      simp [shape, setSlot, hlt]
    · cases h
  | record fields =>
    cases h
    simp only [shape]
    congr 1
    funext k
    rw [Fields.get?_set]
    split
    · rename_i hk
      rw [child, hk] at hd
      rw [hd]
      rfl
    · rfl
  | _ => cases h

/-- A plain object gains a key it lacks. -/
theorem grows_of_record {v' d : FabricValue} {key : JsString} (hv : ∀ slots, v ≠ .array slots)
    (hd : child v key = none) (hcontainer : isContainer v = true)
    (hrecord : isRecordValue v' = true)
    (hchild : ∀ k, child v' k = if k = key then some d else child v k) :
    Grows (some (shape v)) (some (shape v')) := by
  cases v with
  | array slots => exact absurd rfl (hv slots)
  | record fields =>
    cases v' with
    | record fields' =>
      refine ⟨.gains fun k hk => ?_, fun heq => ?_⟩
      · have hk' := hchild k
        simp only [child] at hk'
        rw [hk']
        split
        · rfl
        · exact hk
      · have hhas := congrFun (Shape.record.inj (Option.some.inj heq)) key
        have hkey := hchild key
        simp only [child, if_true] at hkey hd
        rw [hd, hkey] at hhas
        cases hhas
    | _ => cases hrecord
  | _ => cases hcontainer

theorem grows_setChild {c v' : FabricValue} {key : JsString}
    (h : setChild full v key c = .ok v') (hd : child v key = none)
    (hv : ∀ slots, v ≠ .array slots) : Grows (some (shape v)) (some (shape v')) := by
  have hcontainer := setChild_isContainer h
  refine grows_of_record hv hd hcontainer ?_ (child_setChild h)
  rw [setChild_isRecord h]
  cases v with
  | array slots => exact absurd rfl (hv slots)
  | record fields => rfl
  | _ => cases hcontainer

theorem valueAt_snoc (v : FabricValue) (q : ValuePath) (k : JsString) :
    valueAt v (q ++ [k]) = (valueAt v q).bind fun c => child c k := by
  rw [valueAt_append]
  cases valueAt v q with
  | none => rfl
  | some c => simp [valueAt_cons]

theorem path_cases (s q : ValuePath) :
    pathsOverlap s q = false ∨ isPrefixPath s q = true ∨ ∃ k r, s = q ++ k :: r := by
  cases hov : pathsOverlap s q with
  | false => exact .inl rfl
  | true =>
    cases hs : isPrefixPath s q with
    | true => exact .inr (.inl rfl)
    | false =>
      rw [pathsOverlap, hs, Bool.false_or] at hov
      obtain ⟨r, hr⟩ := (isPrefixPath_iff _ _).1 hov
      cases r with
      | nil =>
        rw [List.append_nil] at hr
        rw [hr, isPrefixPath_self] at hs
        cases hs
      | cons k r => exact .inr (.inr ⟨k, r, hr⟩)

/-- At a point of its spine an edit finds the next segment there and leaves the shape, or
creates it. -/
theorem editSpine_above {v' : FabricValue} {r : ValuePath} {k : JsString}
    (h : editSpine full create f v (q ++ k :: r) = .ok v') :
    ((valueAt v (q ++ [k])).isSome = true ∧ shapeAt v' q = shapeAt v q) ∨
      (valueAt v (q ++ [k]) = none ∧ create ≠ none ∧
        ((∀ slots, valueAt v q ≠ some (.array slots)) → Grows (shapeAt v q) (shapeAt v' q))) := by
  obtain ⟨w, hw, hv'⟩ := editSpine_below h
  rw [valueAt_snoc, shapeAt, shapeAt, hv']
  cases hv : valueAt v q with
  | none =>
    rw [hv] at hw
    refine .inr ⟨rfl, ?_, fun _ => ⟨.appears _, nofun⟩⟩
    rintro rfl
    cases hw
  | some c =>
    rw [hv] at hw
    cases editSpine_cons hw with
    | inl hthere =>
      obtain ⟨d, d', hd, -, hset⟩ := hthere
      refine .inl ⟨by rw [Option.bind_some, hd]; rfl, ?_⟩
      rw [Option.map_some, Option.map_some, shape_setChild hset hd]
    | inr hcreated =>
      obtain ⟨nextKey, d', hd, hcreate, -, hset⟩ := hcreated
      refine .inr ⟨hd, by rw [hcreate]; exact nofun, fun harray => ?_⟩
      exact grows_setChild hset hd fun slots hc => harray slots (by rw [hc])

/-- The spine of an operation that creates containers goes through no missing element. -/
theorem validateAddSpine_array {r : ValuePath} {k : JsString}
    {slots : Slots} (h : validateAddSpine full v (q ++ k :: r) = .ok ())
    (hv : valueAt v q = some (.array slots)) : (valueAt v (q ++ [k])).isSome = true := by
  induction q generalizing v with
  | nil =>
    cases hv
    rw [List.nil_append, validateAddSpine] at h
    obtain ⟨i, hi, h⟩ := Except.bind_ok_iff.1 h
    rw [List.nil_append, valueAt_cons, child_array (parseArrayIndex_ok hi)]
    cases hslot : slots[i]?.join with
    | none => rw [hslot] at h; cases h
    | some c => rfl
  | cons key q ih =>
    rw [valueAt_cons] at hv
    cases hc : child v key with
    | none => rw [hc] at hv; cases hv
    | some c =>
      rw [hc] at hv
      rw [List.cons_append, valueAt_cons, hc]
      refine ih ?_ hv
      cases v with
      | array slots' =>
        rw [List.cons_append, validateAddSpine] at h
        obtain ⟨i, hi, h⟩ := Except.bind_ok_iff.1 h
        rw [child_array (parseArrayIndex_ok hi)] at hc
        rw [hc] at h
        exact h
      | record fields =>
        rw [List.cons_append, validateAddSpine] at h
        rw [child] at hc
        rw [hc] at h
        exact h
      | _ => cases hc

/-- The containers on the way to a path, of which the document lacks the next segment. -/
def growing (doc : FabricValue) (path : ValuePath) : List ValuePath :=
  ((List.range path.length).filter fun n => (valueAt doc (path.take (n + 1))).isNone).map path.take

theorem mem_growing :
    q ∈ growing doc path ↔ ∃ k r, path = q ++ k :: r ∧ valueAt doc (q ++ [k]) = none := by
  simp only [growing, List.mem_map, List.mem_filter, List.mem_range, Option.isNone_iff_eq_none]
  constructor
  · rintro ⟨n, ⟨hn, hnone⟩, rfl⟩
    refine ⟨path[n], path.drop (n + 1), ?_, ?_⟩
    · rw [← List.drop_eq_getElem_cons hn, List.take_append_drop]
    · rwa [List.take_append_getElem hn]
  · rintro ⟨k, r, rfl, hnone⟩
    have htake : (q ++ k :: r).take (q.length + 1) = q ++ [k] := by
      rw [List.take_append, List.take_of_length_le (Nat.le_succ _)]
      simp
    refine ⟨q.length, ⟨by simp, ?_⟩, ?_⟩
    · rw [htake, hnone]
    · rw [List.take_left]

/-- An edit whose spine the path is not below: the containers on its way that lack the next
segment gain it, and no other shape changes. -/
theorem editSpine_shape
    {v' : FabricValue} {spine : ValuePath} (h : editSpine full create f v spine = .ok v')
    (hq : isPrefixPath spine q = false)
    (harray : create ≠ none → ∀ k r slots, spine = q ++ k :: r → valueAt v q = some (.array slots) →
      (valueAt v (q ++ [k])).isSome = true) :
    (q ∈ growing v spine → create ≠ none ∧ Grows (shapeAt v q) (shapeAt v' q)) ∧
      (q ∉ growing v spine → shapeAt v' q = shapeAt v q) := by
  rw [mem_growing]
  rcases path_cases spine q with hov | hleads | ⟨k, r, rfl⟩
  · refine ⟨?_, fun _ => by rw [shapeAt, editSpine_outside h hov, shapeAt]⟩
    rintro ⟨k, r, rfl, -⟩
    rw [pathsOverlap_comm, pathsOverlap_append] at hov
    cases hov
  · rw [hleads] at hq
    cases hq
  · cases editSpine_above h with
    | inl hthere =>
      obtain ⟨hsome, hsame⟩ := hthere
      refine ⟨?_, fun _ => hsame⟩
      rintro ⟨k', r', heq, hnone⟩
      cases List.append_cancel_left heq
      rw [hnone] at hsome
      cases hsome
    | inr hcreated =>
      obtain ⟨hnone, hcreate, hgrows⟩ := hcreated
      refine ⟨fun _ => ⟨hcreate, hgrows fun slots hslots => ?_⟩, fun hnot => ?_⟩
      · have hsome := harray hcreate k r slots rfl hslots
        rw [hnone] at hsome
        cases hsome
      · exact absurd ⟨k, r, rfl, hnone⟩ hnot

theorem growing_dropLast (hp : p ≠ [])
    (hq : isPrefixPath p.dropLast q = false) : q ∈ growing doc p ↔ q ∈ growing doc p.dropLast := by
  rw [mem_growing, mem_growing]
  constructor
  · rintro ⟨k, r, rfl, hnone⟩
    cases List.eq_nil_or_concat r with
    | inl hnil =>
      rw [hnil, List.dropLast_concat, isPrefixPath_self] at hq
      cases hq
    | inr hlast =>
      obtain ⟨r', last, rfl⟩ := hlast
      refine ⟨k, r', ?_, hnone⟩
      rw [List.concat_eq_append, ← List.cons_append, ← List.append_assoc, List.dropLast_concat]
  · rintro ⟨k, r, heq, hnone⟩
    refine ⟨k, r ++ [lastKey p], ?_, hnone⟩
    rw [← List.cons_append, ← List.append_assoc, ← heq, ← path_split hp]

/-- An edit of the container above a path, whose leaf function changes no other child of the
container and its shape only where the child is missing. -/
theorem editParent_shape {v' c : FabricValue} (hp : p ≠ [])
    (h : editSpine full create f v p.dropLast = .ok v') (hq : isPrefixPath p q = false)
    (hc : valueAt v p.dropLast = some c)
    (hframe : ∀ c', f c = .ok c' → ∀ k, k ≠ lastKey p → child c' k = child c k)
    (hshape : ∀ c', f c = .ok c' → (child c (lastKey p) = none → Grows (some (shape c)) (some (shape c'))) ∧
      (child c (lastKey p) ≠ none → shape c' = shape c)) :
    (q ∈ growing v p → Grows (shapeAt v q) (shapeAt v' q)) ∧
      (q ∉ growing v p → shapeAt v' q = shapeAt v q) := by
  obtain ⟨c₁, c', hf, hv', hv⟩ := editSpine_leaf h
  have hleaf : c₁ = c := by
    cases hv with
    | inl hthere => rw [hc] at hthere; exact (Option.some.inj hthere).symm
    | inr hcreated =>
      obtain ⟨_, -, hnone, -⟩ := hcreated
      rw [hc] at hnone
      cases hnone
  rw [hleaf] at hf
  cases hparent : isPrefixPath p.dropLast q with
  | false =>
    rw [growing_dropLast hp hparent]
    have hstep := editSpine_shape h hparent fun _ k r slots heq hslots => by
      rw [heq, valueAt_append, hslots, Option.bind_some, valueAt_cons] at hc
      rw [valueAt_append, hslots, Option.bind_some, valueAt_cons]
      cases hk : child (.array slots) k with
      | none => rw [hk] at hc; cases hc
      | some d => rfl
    exact ⟨fun hmem => (hstep.1 hmem).2, hstep.2⟩
  | true =>
    obtain ⟨s, rfl⟩ := (isPrefixPath_iff _ _).1 hparent
    cases s with
    | nil =>
      -- the container itself
      rw [List.append_nil, mem_growing, shapeAt, shapeAt, hv', hc]
      have hchild : valueAt v (p.dropLast ++ [lastKey p]) = child c (lastKey p) := by
        rw [valueAt_snoc, hc, Option.bind_some]
      constructor
      · rintro ⟨k, r, heq, hnone⟩
        have hsplit := (path_split hp).symm.trans heq
        cases List.append_cancel_left hsplit
        exact (hshape c' hf).1 (hchild ▸ hnone)
      · intro hnot
        have hsome : child c (lastKey p) ≠ none := fun hnone =>
          hnot ⟨lastKey p, [], path_split hp, hchild.trans hnone⟩
        rw [Option.map_some, Option.map_some, (hshape c' hf).2 hsome]
    | cons k r =>
      have hk : k ≠ lastKey p := by
        rintro rfl
        have hbelow : isPrefixPath p (p.dropLast ++ lastKey p :: r) = true := by
          rw [List.append_cons, ← path_split hp, isPrefixPath_append]
        rw [hbelow] at hq
        cases hq
      have hnot : p.dropLast ++ k :: r ∉ growing v p := by
        rw [mem_growing]
        rintro ⟨k', r', heq, -⟩
        have hlength := congrArg List.length heq
        simp only [List.length_append, List.length_cons, List.length_dropLast] at hlength
        omega
      refine ⟨fun hmem => absurd hmem hnot, fun _ => ?_⟩
      rw [shapeAt, shapeAt, valueAt_append, valueAt_append, hv', hc, Option.bind_some,
        Option.bind_some, valueAt_congr_child (hframe c' hf k hk)]

namespace PatchOp

/-- The path an operation puts a value at, whether or not one is there. -/
def writes : PatchOp → Option JsString
  | .replace path _ => some path
  | .add path _ => some path
  | .move _ path => some path
  | .append path _ _ => some path
  | .addUnique path _ _ => some path
  | .increment path _ _ => some path
  | _ => none

/-- The containers that gain a key when the operation applies. -/
def grows (doc : FabricValue) (op : PatchOp) : List ValuePath :=
  match op.writes.map parsePointer with
  | some (.ok path) => growing doc path
  | _ => []

def isReplace : PatchOp → Bool
  | .replace .. => true
  | _ => false

/-- Those above the parent of the path, and the parent itself where a `replace` finds no key. -/
def growsAbove (doc : FabricValue) (op : PatchOp) : List ValuePath :=
  match op.writes.map parsePointer with
  | some (.ok path) =>
    (growing doc path).filter fun q => op.isReplace || q.length + 1 < path.length
  | _ => []

def lacks (doc : FabricValue) (pointer : JsString) : Bool :=
  match parsePointer pointer with
  | .ok path => (valueAt doc path).isNone
  | .error _ => false

/-- What an operation says of the key it may create is so: an `add` is for an absent key, and
`createsKey` stands exactly where the key is absent. -/
def createFlagRight (doc : FabricValue) : PatchOp → Bool
  | .add path _ => lacks doc path
  | .append path _ createsKey => createsKey == lacks doc path
  | .addUnique path _ createsKey => createsKey == lacks doc path
  | .increment path _ createsKey => createsKey == lacks doc path
  | _ => true

end PatchOp

theorem grows_of_writes {pointer : JsString}
    (hop : op.writes = some pointer) (h : parsePointer pointer = .ok path) :
    op.grows doc = growing doc path := by
  rw [PatchOp.grows, hop, Option.map_some, h]

theorem grows_of_not_writes (hop : op.writes = none) :
    op.grows doc = [] := by
  rw [PatchOp.grows, hop, Option.map_none]

/-- A shape read that an operation leaves alone: it is below none of the paths the operation
names, nor below their parents where keys come and go. -/
structure ShapeClear (op : PatchOp) (q : ValuePath) : Prop where
  leaf : ∀ pointer ∈ op.pointers, ∀ path, parsePointer pointer = .ok path →
    isPrefixPath path q = false
  parent : op.changesParentKeySet = true → ∀ pointer ∈ op.pointers, ∀ path,
    parsePointer pointer = .ok path → isPrefixPath path.dropLast q = false

theorem shapeClear_of_opClear (h : OpClear op q true) :
    ShapeClear op q := by
  obtain ⟨leaves, hleaves, htouch⟩ := h
  have hclear : ∀ path ∈ touchedPathsForPatch op leaves, isPrefixPath path q = false := by
    intro path hpath
    have hall := List.any_eq_false.1 (show List.any _ _ = false from htouch) path hpath
    simpa using hall
  constructor
  · intro pointer hmem path hpath
    apply hclear
    have hleaf := touchedLeafPaths_mem hleaves hmem hpath
    rw [touchedPathsForPatch]
    split
    · exact List.mem_append_left _ hleaf
    · exact hleaf
  · intro hchanges pointer hmem path hpath
    apply hclear
    rw [touchedPathsForPatch, if_pos hchanges]
    exact List.mem_append_right _
      (List.mem_map_of_mem (touchedLeafPaths_mem hleaves hmem hpath))

theorem ne_nil_of_not_prefix (h : isPrefixPath p q = false) : p ≠ [] := by
  rintro rfl
  cases h

/-- What an operation may do to a shape it leaves alone. -/
structure ShapeStep (doc doc' : FabricValue) (q : ValuePath) (grown : List ValuePath) : Prop where
  grows : q ∈ grown → Grows (shapeAt doc q) (shapeAt doc' q)
  same : q ∉ grown → shapeAt doc' q = shapeAt doc q

/-- An operation that keeps what is there and creates nothing. -/
theorem shapeStep_none {spine : ValuePath}
    (h : editSpine full none f doc spine = .ok doc') (hq : isPrefixPath spine q = false) :
    shapeAt doc' q = shapeAt doc q := by
  have hstep := editSpine_shape h hq fun hne => absurd rfl hne
  by_cases hmem : q ∈ growing doc spine
  · exact absurd rfl (hstep.1 hmem).1
  · exact hstep.2 hmem

theorem replaceIn_shape {value c c' : FabricValue} (h : replaceIn path value c = .ok c') :
    (child c (lastKey path) = none → Grows (some (shape c)) (some (shape c'))) ∧
      (child c (lastKey path) ≠ none → shape c' = shape c) := by
  cases c with
  | array slots =>
    obtain ⟨i, hi, hset⟩ := Except.bind_ok_iff.1 h
    obtain ⟨hidx, hsome⟩ := requireExistingArrayIndex_ok hi
    cases hset
    rw [child_array hidx]
    refine ⟨fun hnone => ?_, fun _ => by simp [shape]⟩
    rw [hnone] at hsome
    cases hsome
  | record fields =>
    cases h
    exact ⟨fun hnone => @grows_setChild path _ _ _ _ rfl hnone
        fun _ heq => FabricValue.noConfusion heq,
      fun hsome => by
        obtain ⟨d, hd⟩ := Option.ne_none_iff_exists'.1 hsome
        exact @shape_setChild path _ _ _ _ _ rfl hd⟩
  | _ => cases h

theorem ShapeStep.replace {value : FabricValue}
    (h : replaceAtPath doc p value = .ok doc') (hq : isPrefixPath p q = false) :
    ShapeStep doc doc' q (growing doc p) := by
  have hp := ne_nil_of_not_prefix hq
  simp only [replaceAtPath, hp, if_false] at h
  obtain ⟨c, _, _, _, hc⟩ := editSpine_leaf h
  cases hc with
  | inl hthere =>
    obtain ⟨hgrows, hsame⟩ := editParent_shape hp h hq hthere
      (fun c' hf k hk => by rw [replaceIn_child hf, if_neg hk]) fun c' hf => replaceIn_shape hf
    exact ⟨hgrows, hsame⟩
  | inr hcreated =>
    obtain ⟨_, hcreate, _⟩ := hcreated
    cases hcreate

theorem ShapeStep.add {value : FabricValue}
    (h : addAtPath doc p value = .ok doc') (hleaf : isPrefixPath p q = false)
    (hq : isPrefixPath p.dropLast q = false) : ShapeStep doc doc' q (growing doc p) := by
  have hp := ne_nil_of_not_prefix hleaf
  simp only [addAtPath, hp, if_false] at h
  obtain ⟨hvalid, h⟩ := Except.check_ok_iff.1 h
  obtain ⟨hgrows, hsame⟩ := editSpine_shape h hq fun _ k r slots heq hslots =>
    validateAddSpine_array (heq ▸ hvalid) hslots
  rw [← growing_dropLast hp hq] at hgrows hsame
  exact ⟨fun hmem => (hgrows hmem).2, hsame⟩

theorem removeAtPath_shape (h : removeAtPath doc p = .ok doc') (hleaf : isPrefixPath p q = false)
    (hq : isPrefixPath p.dropLast q = false) : shapeAt doc' q = shapeAt doc q := by
  simp only [removeAtPath, ne_nil_of_not_prefix hleaf, if_false] at h
  exact shapeStep_none h hq

/-- What is there just below such a path is there afterwards, and the other way around. -/
theorem removeAtPath_growing {source : ValuePath}
    (h : removeAtPath doc source = .ok doc') (hleaf : isPrefixPath source q = false)
    (hq : isPrefixPath source.dropLast q = false) : q ∈ growing doc' p ↔ q ∈ growing doc p := by
  simp only [removeAtPath, ne_nil_of_not_prefix hleaf, if_false] at h
  have hkeep (k : JsString) : valueAt doc' (q ++ [k]) = none ↔ valueAt doc (q ++ [k]) = none := by
    rcases path_cases source.dropLast (q ++ [k]) with hov | hleads | ⟨l, r, heq⟩
    · rw [editSpine_outside h hov]
    · obtain ⟨r, hr⟩ := (isPrefixPath_iff _ _).1 hleads
      cases List.eq_nil_or_concat r with
      | inl hnil =>
        rw [hnil, List.append_nil] at hr
        obtain ⟨c, c', -, hc', hc⟩ := editSpine_leaf h
        rw [hr, hc']
        cases hc with
        | inl hthere =>
          rw [hthere]
          constructor
          · intro hnone
            cases hnone
          · intro hnone
            cases hnone
        | inr hcreated =>
          obtain ⟨_, hcreate, _⟩ := hcreated
          cases hcreate
      | inr hlast =>
        obtain ⟨r', last, rfl⟩ := hlast
        rw [List.concat_eq_append, ← List.append_assoc] at hr
        rw [(List.append_inj' hr rfl).1, isPrefixPath_append] at hq
        cases hq
    · rw [heq] at h
      obtain ⟨w, hw, hv⟩ := editSpine_below h
      rw [hv]
      cases hc : valueAt doc (q ++ [k]) with
      | none => rw [hc] at hw; cases hw
      | some c =>
        constructor
        · intro hnone
          cases hnone
        · intro hnone
          cases hnone
  rw [mem_growing, mem_growing]
  constructor
  · rintro ⟨k, r, heq, hnone⟩
    exact ⟨k, r, heq, (hkeep k).1 hnone⟩
  · rintro ⟨k, r, heq, hnone⟩
    exact ⟨k, r, heq, (hkeep k).2 hnone⟩

theorem ShapeStep.move {source : ValuePath}
    (h : moveValue doc source p = .ok doc') (hsource : isPrefixPath source q = false)
    (hsourceParent : isPrefixPath source.dropLast q = false) (hleaf : isPrefixPath p q = false)
    (hq : isPrefixPath p.dropLast q = false) : ShapeStep doc doc' q (growing doc p) := by
  simp only [moveValue, ne_nil_of_not_prefix hsource, if_false] at h
  split at h
  · cases h
  · obtain ⟨extracted, -, h⟩ := Except.bind_ok_iff.1 h
    obtain ⟨removed, hremove, h⟩ := Except.bind_ok_iff.1 h
    have hadd := ShapeStep.add h hleaf hq
    have hsame := removeAtPath_shape hremove hsource hsourceParent
    have hgrowing := removeAtPath_growing (p := p) hremove hsource hsourceParent
    constructor
    · intro hmem
      rw [← hsame]
      exact hadd.grows (hgrowing.2 hmem)
    · intro hnot
      rw [← hsame]
      exact hadd.same fun hmem => hnot (hgrowing.1 hmem)

/-- An edit at the path itself, whose spine is checked up to the path's parent. -/
theorem ShapeStep.tail {op : JsString}
    {extend : Slots → Slots} (h : tailAtPath doc p op extend = .ok doc')
    (hleaf : isPrefixPath p q = false)
    (hq : valueAt doc p = none → isPrefixPath p.dropLast q = false) :
    ShapeStep doc doc' q (growing doc p) := by
  have hp := ne_nil_of_not_prefix hleaf
  obtain ⟨hvalid, h⟩ := Except.check_ok_iff.1 h
  split at h
  · obtain ⟨c, _, _, _, hc⟩ := editSpine_leaf h
    cases hc with
    | inl hthere =>
      obtain ⟨hgrows, hsame⟩ := editParent_shape hp h hleaf hthere
        (fun c' hf k hk => by rw [replaceIn_child hf, if_neg hk]) fun c' hf => replaceIn_shape hf
      exact ⟨hgrows, hsame⟩
    | inr hcreated =>
      obtain ⟨_, hcreate, _⟩ := hcreated
      cases hcreate
  · have hstep := editSpine_shape h hleaf fun _ k r slots heq hslots => by
      cases List.eq_nil_or_concat r with
      | inl hnil =>
        -- The array above the path: it lacks the element only if the parent is touched.
        rw [hnil] at heq
        cases hv : valueAt doc (q ++ [k]) with
        | some _ => rfl
        | none =>
          have hparent := hq (by rw [heq, hv])
          rw [heq, List.dropLast_concat, isPrefixPath_self] at hparent
          cases hparent
      | inr hlast =>
        obtain ⟨r', last, rfl⟩ := hlast
        rw [heq, List.concat_eq_append, ← List.cons_append, ← List.append_assoc,
          List.dropLast_concat] at hvalid
        exact validateAddSpine_array hvalid hslots
    exact ⟨fun hmem => (hstep.1 hmem).2, hstep.2⟩

theorem incrementIn_shape {next : JsNumber} {c c' d : FabricValue}
    (h : incrementIn path next c = .ok c') (hd : child c (lastKey path) = some d) :
    shape c' = shape c := by
  cases c with
  | array slots =>
    obtain ⟨i, hi, hset⟩ := Except.bind_ok_iff.1 h
    obtain ⟨hidx, -⟩ := parseArrayInsertIndex_ok hi
    cases hset
    rw [child_array hidx] at hd
    have hlt : i < slots.length := by
      by_contra hge
      simp [List.getElem?_eq_none (Nat.le_of_not_lt hge)] at hd
    simp [shape, setSlot, hlt]
  | record fields =>
    cases h
    exact @shape_setChild path _ _ _ _ _ rfl hd
  | _ => cases h

theorem ShapeStep.increment {amount : JsNumber}
    (h : incrementAtPath doc p amount = .ok doc') (hleaf : isPrefixPath p q = false)
    (hq : valueAt doc p = none → isPrefixPath p.dropLast q = false) :
    ShapeStep doc doc' q (growing doc p) := by
  have hp := ne_nil_of_not_prefix hleaf
  have hvalid : ∃ current, incrementFrom doc p current amount = .ok doc' := by
    simp only [incrementAtPath, hp, if_false] at h
    split at h
    · cases h
    · split at h
      · exact ⟨_, h⟩
      · exact ⟨_, h⟩
      · cases h
  obtain ⟨current, hfrom⟩ := hvalid
  obtain ⟨hvalid, hedit⟩ := Except.check_ok_iff.1 hfrom
  cases hv : valueAt doc p with
  | none =>
    obtain ⟨hgrows, hsame⟩ := editSpine_shape hedit (hq hv) fun _ k r slots heq hslots =>
      validateAddSpine_array (heq ▸ hvalid) hslots
    rw [← growing_dropLast hp (hq hv)] at hgrows hsame
    exact ⟨fun hmem => (hgrows hmem).2, hsame⟩
  | some d =>
    rw [path_split hp, valueAt_snoc] at hv
    cases hc : valueAt doc p.dropLast with
    | none => rw [hc] at hv; cases hv
    | some c =>
      rw [hc, Option.bind_some] at hv
      obtain ⟨hgrows, hsame⟩ := editParent_shape hp hedit hleaf hc
        (fun c' hf k hk => by rw [incrementIn_child hf, if_neg hk]) fun c' hf =>
          ⟨fun hnone => (by rw [hv] at hnone; cases hnone), fun _ => incrementIn_shape hf hv⟩
      exact ⟨hgrows, hsame⟩

theorem ShapeStep.of_same (h : shapeAt doc' q = shapeAt doc q) : ShapeStep doc doc' q [] :=
  ⟨fun hmem => absurd hmem List.not_mem_nil, fun _ => h⟩

/-- The flag of an operation that finds no value at its path says that it changes the keys
above. -/
theorem changesParentKeySet_of_flag {pointer : JsString} {createsKey : Bool}
    (hop : op.createsKey = createsKey)
    (hflag : (createsKey == PatchOp.lacks doc pointer) = true)
    (hpath : parsePointer pointer = .ok path) (hnone : valueAt doc path = none) :
    op.changesParentKeySet = true := by
  simp only [PatchOp.lacks, hpath, hnone, Option.isNone_none, beq_true] at hflag
  rw [PatchOp.changesParentKeySet, hop, hflag, Bool.or_true]

open PatchOp in
/-- One operation: where it leaves a shape read alone, the shape grows if the operation creates
a container there, and stays otherwise. -/
theorem applyOp_shape (h : applyOp doc op = .ok doc') (hflag : op.createFlagRight doc = true)
    (hclear : ShapeClear op q) : ShapeStep doc doc' q (op.grows doc) := by
  cases op with
  | replace path value =>
    obtain ⟨p, hp, h⟩ := Except.bind_ok_iff.1 h
    rw [grows_of_writes rfl hp]
    exact .replace h (hclear.leaf path (by simp [pointers]) p hp)
  | add path value =>
    obtain ⟨p, hp, h⟩ := Except.bind_ok_iff.1 h
    rw [grows_of_writes rfl hp]
    exact .add h (hclear.leaf path (by simp [pointers]) p hp)
      (hclear.parent rfl path (by simp [pointers]) p hp)
  | remove path =>
    obtain ⟨p, hp, h⟩ := Except.bind_ok_iff.1 h
    rw [grows_of_not_writes rfl]
    exact .of_same (removeAtPath_shape h (hclear.leaf path (by simp [pointers]) p hp)
      (hclear.parent rfl path (by simp [pointers]) p hp))
  | move source path =>
    obtain ⟨s, hs, h⟩ := Except.bind_ok_iff.1 h
    obtain ⟨p, hp, h⟩ := Except.bind_ok_iff.1 h
    rw [grows_of_writes rfl hp]
    exact .move h (hclear.leaf source (by simp [pointers]) s hs)
      (hclear.parent rfl source (by simp [pointers]) s hs)
      (hclear.leaf path (by simp [pointers]) p hp)
      (hclear.parent rfl path (by simp [pointers]) p hp)
  | splice path index remove insert =>
    obtain ⟨p, hp, h⟩ := Except.bind_ok_iff.1 h
    rw [grows_of_not_writes rfl]
    exact .of_same (shapeStep_none h (hclear.leaf path (by simp [pointers]) p hp))
  | append path values createsKey =>
    obtain ⟨p, hp, h⟩ := Except.bind_ok_iff.1 h
    rw [grows_of_writes rfl hp]
    exact .tail h (hclear.leaf path (by simp [pointers]) p hp) fun hnone =>
      hclear.parent (changesParentKeySet_of_flag rfl hflag hp hnone) path (by simp [pointers]) p hp
  | addUnique path values createsKey =>
    obtain ⟨p, hp, h⟩ := Except.bind_ok_iff.1 h
    rw [grows_of_writes rfl hp]
    exact .tail h (hclear.leaf path (by simp [pointers]) p hp) fun hnone =>
      hclear.parent (changesParentKeySet_of_flag rfl hflag hp hnone) path (by simp [pointers]) p hp
  | removeByValue path value =>
    obtain ⟨p, hp, h⟩ := Except.bind_ok_iff.1 h
    rw [grows_of_not_writes rfl]
    simp only [removeByValueAtPath] at h
    split at h
    · split at h
      · exact .of_same (shapeStep_none h (hclear.leaf path (by simp [pointers]) p hp))
      · cases h; exact .of_same rfl
    · cases h; exact .of_same rfl
  | increment path amount createsKey =>
    obtain ⟨p, hp, h⟩ := Except.bind_ok_iff.1 h
    rw [grows_of_writes rfl hp]
    exact .increment h (hclear.leaf path (by simp [pointers]) p hp) fun hnone =>
      hclear.parent (changesParentKeySet_of_flag rfl hflag hp hnone) path (by simp [pointers]) p hp

/-- The create flag of each operation is right for the document it applies to. -/
def createFlagsRight : FabricValue → List PatchOp → Bool
  | _, [] => true
  | doc, op :: ops =>
    op.createFlagRight doc &&
      match applyOp doc op with
      | .ok next => createFlagsRight next ops
      | .error _ => true

/-- What `f` lists of each operation of a patch, at the document the operation applies to. -/
def along (f : FabricValue → PatchOp → List ValuePath) : FabricValue → List PatchOp → List ValuePath
  | _, [] => []
  | doc, op :: ops =>
    f doc op ++
      match applyOp doc op with
      | .ok next => along f next ops
      | .error _ => []

/-- An operation of the patch touches the path, or one above it. -/
def touchedAtOrAbove (ops : List PatchOp) (q : ValuePath) : Bool :=
  ops.any fun op =>
    match touchedLeafPathsForPatch op with
    | .ok leaves => (touchedPathsForPatch op leaves).any (isPrefixPath · q)
    | .error _ => false

theorem touchedAtOrAbove_of_clear
    (h : ∀ op ∈ ops, OpClear op q true) : touchedAtOrAbove ops q = false := by
  rw [touchedAtOrAbove, List.any_eq_false]
  intro op hop
  obtain ⟨leaves, hleaves, htouch⟩ := h op hop
  rw [hleaves]
  simpa [opTouchesRead] using htouch

theorem overlaps_of_touched
    (h : applyPatch doc ops = .ok doc') (htouch : touchedAtOrAbove ops q = true) :
    patchOverlapsNonRecursiveRead ops q = .ok true := by
  cases patchesTouchRead_cases (applyPatch_leaves h) with
  | inl hfound => exact hfound
  | inr hclear => rw [touchedAtOrAbove_of_clear hclear] at htouch; cases htouch

/-- A run: where the patch leaves a shape read alone, the shape has grown if a container there
gained a key, and has stayed otherwise. -/
theorem applyPatch_shape
    (h : applyPatch doc ops = .ok doc') (hflags : createFlagsRight doc ops = true)
    (hclear : ∀ op ∈ ops, ShapeClear op q) : ShapeStep doc doc' q (along PatchOp.grows doc ops) := by
  induction ops generalizing doc with
  | nil => cases h; exact .of_same rfl
  | cons op ops ih =>
    obtain ⟨next, hstep, hrest⟩ := List.foldlM_cons_ok.1 h
    simp only [createFlagsRight, hstep, Bool.and_eq_true] at hflags
    have hfirst := applyOp_shape hstep hflags.1 (hclear op List.mem_cons_self)
    have hlater := ih hrest hflags.2 fun op' hop' => hclear op' (List.mem_cons_of_mem _ hop')
    have hbelow : ∀ {d d' : FabricValue} {grown : List ValuePath}, ShapeStep d d' q grown →
        Below (shapeAt d q) (shapeAt d' q) := by
      intro d d' grown hs
      by_cases hmem : q ∈ grown
      · exact (hs.grows hmem).below
      · rw [hs.same hmem]
        exact .same _
    simp only [along, hstep]
    constructor
    · intro hmem
      refine ⟨(hbelow hfirst).trans (hbelow hlater), ?_⟩
      cases List.mem_append.1 hmem with
      | inl hnow => exact (hfirst.grows hnow).then (hbelow hlater)
      | inr hthen =>
        exact (hbelow hfirst).then (hlater.grows hthen).changed (hlater.grows hthen).below
    · intro hnot
      rw [List.mem_append, not_or] at hnot
      rw [hlater.same hnot.2, hfirst.same hnot.1]

theorem growsAbove_subset (hq : q ∈ op.growsAbove doc) : q ∈ op.grows doc := by
  unfold PatchOp.growsAbove at hq
  unfold PatchOp.grows
  split at hq
  · exact (List.mem_filter.1 hq).1
  · cases hq

theorem mem_pointers_of_writes {pointer : JsString} (h : op.writes = some pointer) :
    pointer ∈ op.pointers := by
  cases op <;> cases h <;> simp [PatchOp.pointers]

/-- A `replace` apart, an operation that puts a key where there was none changes the keys above. -/
theorem changesParentKeySet_of_lacks {pointer : JsString} (h : op.writes = some pointer)
    (hreplace : op.isReplace = false) (hflag : op.createFlagRight doc = true)
    (hpath : parsePointer pointer = .ok path) (hnone : valueAt doc path = none) :
    op.changesParentKeySet = true := by
  cases op with
  | replace path value => cases hreplace
  | add path value => rfl
  | move source path => rfl
  | append path values createsKey | addUnique path values createsKey
  | increment path amount createsKey =>
    cases h
    exact changesParentKeySet_of_flag rfl hflag hpath hnone
  | _ => cases h

/-- The parent of a path is touched by the operation that puts a key there, unless that is a
`replace`. -/
theorem growsAbove_of_clear (hflag : op.createFlagRight doc = true) (hclear : ShapeClear op q)
    (hq : q ∈ op.grows doc) : q ∈ op.growsAbove doc := by
  unfold PatchOp.grows at hq
  unfold PatchOp.growsAbove
  split at hq
  · rename_i path hpath
    obtain ⟨pointer, hwrites, hparse⟩ := Option.map_eq_some_iff.1 hpath
    refine List.mem_filter.2 ⟨hq, ?_⟩
    by_contra hnot
    rw [Bool.or_eq_true, not_or, Bool.not_eq_true, decide_eq_true_eq] at hnot
    obtain ⟨k, r, rfl, hnone⟩ := mem_growing.1 hq
    obtain rfl : r = [] := by
      have hlength := hnot.2
      rw [List.length_append, List.length_cons] at hlength
      exact List.length_eq_zero_iff.1 (by omega)
    have hparent := hclear.parent (changesParentKeySet_of_lacks hwrites hnot.1 hflag hparse hnone)
      pointer (mem_pointers_of_writes hwrites) _ hparse
    rw [List.dropLast_concat, isPrefixPath_self] at hparent
    cases hparent
  · cases hq

theorem along_growsAbove_of_clear (h : applyPatch doc ops = .ok doc')
    (hflags : createFlagsRight doc ops = true) (hclear : ∀ op ∈ ops, ShapeClear op q)
    (hq : q ∈ along PatchOp.grows doc ops) : q ∈ along PatchOp.growsAbove doc ops := by
  induction ops generalizing doc with
  | nil => exact hq
  | cons op ops ih =>
    obtain ⟨next, hstep, hrest⟩ := List.foldlM_cons_ok.1 h
    simp only [createFlagsRight, hstep, Bool.and_eq_true] at hflags
    simp only [along, hstep, List.mem_append] at hq ⊢
    cases hq with
    | inl hnow => exact .inl (growsAbove_of_clear hflags.1 (hclear op List.mem_cons_self) hnow)
    | inr hthen =>
      exact .inr (ih hrest hflags.2 (fun op' hop' => hclear op' (List.mem_cons_of_mem _ hop')) hthen)

theorem along_growsAbove_subset (hq : q ∈ along PatchOp.growsAbove doc ops) :
    q ∈ along PatchOp.grows doc ops := by
  induction ops generalizing doc with
  | nil => exact hq
  | cons op ops ih =>
    rw [along, List.mem_append] at hq ⊢
    refine hq.imp growsAbove_subset fun hthen => ?_
    split at hthen
    · exact ih hthen
    · cases hthen

/-- A patch with the right create flags overlaps every shape read of what it changes if and only
if each container above a parent that gains a key as it applies, and each that gains one by a
`replace`, is at or below a path that it touches. -/
theorem patchOverlapsNonRecursiveRead_sound_iff {ops : List PatchOp} {doc doc' : FabricValue}
    (h : applyPatch doc ops = .ok doc') (hflags : createFlagsRight doc ops = true) :
    (∀ q, shapeAt doc' q ≠ shapeAt doc q → patchOverlapsNonRecursiveRead ops q = .ok true) ↔
      ∀ q ∈ along PatchOp.growsAbove doc ops, touchedAtOrAbove ops q = true := by
  have hcases (q : ValuePath) : patchOverlapsNonRecursiveRead ops q = .ok true ∨
      ∀ op ∈ ops, OpClear op q true := patchesTouchRead_cases (applyPatch_leaves h)
  have hshape {q : ValuePath} (hclear : ∀ op ∈ ops, OpClear op q true) :
      ∀ op ∈ ops, ShapeClear op q := fun op hop => shapeClear_of_opClear (hclear op hop)
  have hrun {q : ValuePath} (hclear : ∀ op ∈ ops, OpClear op q true) :
      ShapeStep doc doc' q (along PatchOp.grows doc ops) :=
    applyPatch_shape h hflags (hshape hclear)
  constructor
  · intro hsound q hq
    by_contra htouch
    cases hcases q with
    | inl hfound =>
      refine htouch ?_
      by_contra hnot
      have hclear : ∀ op ∈ ops, OpClear op q true := by
        intro op hop
        obtain ⟨leaves, hleaves⟩ := applyPatch_leaves h op hop
        refine ⟨leaves, hleaves, ?_⟩
        rw [Bool.not_eq_true, touchedAtOrAbove, List.any_eq_false] at hnot
        simpa [hleaves, opTouchesRead] using hnot op hop
      rw [patchOverlapsNonRecursiveRead, patchesTouchRead_of_clear hclear] at hfound
      cases hfound
    | inr hclear =>
      have hgrown := (hrun hclear).grows (along_growsAbove_subset hq)
      have hfound := hsound q hgrown.changed.symm
      rw [patchOverlapsNonRecursiveRead, patchesTouchRead_of_clear hclear] at hfound
      cases hfound
  · intro htouched q hdiffers
    cases hcases q with
    | inl hfound => exact hfound
    | inr hclear =>
      by_cases hq : q ∈ along PatchOp.grows doc ops
      · exact overlaps_of_touched h
          (htouched q (along_growsAbove_of_clear h hflags (hshape hclear) hq))
      · exact absurd ((hrun hclear).same hq) hdiffers

/-- A key added to an object that is there, and an increment of a counter whose object is
created with it by an operation above. -/
theorem patchOverlapsNonRecursiveRead_sound_nested :
    shapeAt (.record [("value", .record [("b", .record [("n", .number (.finite 1))])])])
      ["value"] ≠ shapeAt (.record [("value", .record [])]) ["value"] ∧
    patchOverlapsNonRecursiveRead
      [.add "/value/b" (.record []), .increment "/value/b/n" (.finite 1) true] ["value"] =
        .ok true := by
  have hdiffers :
      shapeAt (.record [("value", .record [("b", .record [("n", .number (.finite 1))])])])
        ["value"] ≠ shapeAt (.record [("value", .record [])]) ["value"] := by
    intro heq
    have hkeys := congrFun (Shape.record.inj (Option.some.inj heq)) "b"
    revert hkeys
    decide +kernel
  have hsound := (@patchOverlapsNonRecursiveRead_sound_iff
    [.add "/value/b" (.record []), .increment "/value/b/n" (.finite 1) true]
    (.record [("value", .record [])])
    (.record [("value", .record [("b", .record [("n", .number (.finite 1))])])])
    (by decide +kernel) (by decide +kernel)).2 (by decide +kernel)
  exact ⟨hdiffers, hsound _ hdiffers⟩

/-- A first append two levels below what the document holds: the object it creates on its way
is a new key of an object that no touched path is at or above. -/
theorem patchOverlapsNonRecursiveRead_misses_ancestor :
    applyPatch (.record [("value", .record [])]) [.append "/value/b/log" [.null] true] =
      .ok (.record [("value", .record [("b", .record [("log", .array [some .null])])])]) ∧
    createFlagsRight (.record [("value", .record [])]) [.append "/value/b/log" [.null] true] =
      true ∧
    shapeAt (.record [("value", .record [("b", .record [("log", .array [some .null])])])])
      ["value"] ≠ shapeAt (.record [("value", .record [])]) ["value"] ∧
    patchOverlapsNonRecursiveRead [.append "/value/b/log" [.null] true] ["value"] = .ok false := by
  refine ⟨by decide +kernel, by decide +kernel, ?_, by decide +kernel⟩
  intro heq
  have hkeys := congrFun (Shape.record.inj (Option.some.inj heq)) "b"
  revert hkeys
  decide +kernel
