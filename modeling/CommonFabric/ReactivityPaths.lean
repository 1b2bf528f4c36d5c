import CommonFabric.ConflictScan
import CommonFabric.DocumentReads
import CommonFabric.JsMap
import CommonFabric.SchedulerKeys

/-!
# The paths a transaction's writes report

A transaction reports the paths it wrote where the value differs, and the places above them
whose shape differs. Readers are woken by the overlap of their paths with these.
-/

open Pointer

namespace Reactivity

structure ReportState where
  paths : JsMap JsString ValuePath
  /-- By the ancestor's pointer. -/
  ancestorChanged : JsMap JsString Bool

variable (before after : FabricValue)

/-- The prefix of the path with the given length, at its pointer. -/
def reportAncestor (path : ValuePath) (st : ReportState) (prefixLength : Nat) : ReportState :=
  let pointer := (prefixPointers path).getD prefixLength ""
  let ancestor := path.take prefixLength
  let known := st.ancestorChanged.get pointer
  let changed := known.getD
    (shallowStructureChanged (readValueAtPath before ancestor) (readValueAtPath after ancestor))
  let st := if known.isSome then st
    else { st with ancestorChanged := st.ancestorChanged.set pointer changed }
  if changed && !st.paths.has pointer then { st with paths := st.paths.set pointer ancestor }
  else st

def reportWrite (st : ReportState) (path : ValuePath) : ReportState :=
  if valueEqual (readValueAtPath before path) (readValueAtPath after path) then st
  else
    let st := (List.range' 1 (path.length - 1)).foldl (reportAncestor before after path) st
    { st with paths := st.paths.set ((prefixPointers path).getD path.length "") path }

end Reactivity

/-- `left` does not come after `right` under `compareDocPaths`. -/
def docPathLe (left right : ValuePath) : Prop :=
  left.length < right.length ∨
    left.length = right.length ∧ (encodePointer right).lt (encodePointer left) = false

instance : DecidableRel docPathLe := fun left right =>
  inferInstanceAs (Decidable (left.length < right.length ∨ _ ∧ _))

def buildReactivityPathsForChanges (before after : FabricValue) (writtenPaths : List ValuePath) :
    List ValuePath :=
  (writtenPaths.foldl (Reactivity.reportWrite before after) ⟨.empty, .empty⟩).paths.values
    |>.insertionSort docPathLe

namespace Reactivity

variable {before after : FabricValue}

/-- The documents differ at the path. -/
def Differs (before after : FabricValue) (path : ValuePath) : Prop :=
  readValueAtPath before path ≠ readValueAtPath after path

/-- What a shallow read sees at the path differs. -/
def ShapeDiffers (before after : FabricValue) (path : ValuePath) : Prop :=
  shapeOf (readValueAtPath before path) ≠ shapeOf (readValueAtPath after path)

theorem ShapeDiffers.differs {path : ValuePath} (h : ShapeDiffers before after path) :
    Differs before after path := fun heq => h (congrArg shapeOf heq)

theorem Differs.of_append {p q : ValuePath} (h : Differs before after (p ++ q)) :
    Differs before after p := by
  intro heq
  apply h
  rw [readValueAtPath_append, readValueAtPath_append, heq]

theorem Differs.of_prefix {p q : ValuePath} (h : Differs before after q) (hp : p <+: q) :
    Differs before after p := by
  obtain ⟨r, rfl⟩ := hp
  exact h.of_append

/-- A written path whose value differs, or a place above one whose shape differs. -/
def Reported (before after : FabricValue) (writtenPaths : List ValuePath) (r : ValuePath) : Prop :=
  ∃ w ∈ writtenPaths, Differs before after w ∧ r <+: w ∧
    (r = w ∨ r ≠ [] ∧ ShapeDiffers before after r)

theorem getD_prefixPointers {path : ValuePath} {n : Nat} (h : n ≤ path.length) :
    (prefixPointers path).getD n "" = encodePointer (path.take n) := by
  have hn : n < path.inits.length := by
    rw [List.length_inits]
    omega
  rw [prefixPointers_eq, List.getD_eq_getElem?_getD, List.getElem?_map,
    List.getElem?_eq_getElem hn, List.getElem_inits]
  rfl

/-- The state of the report: the paths shown so far, and what is known of their ancestors. -/
structure ReportState.Sound (before after : FabricValue) (shown : ValuePath → Prop)
    (st : ReportState) : Prop where
  keyed : ∀ k r, st.paths.get k = some r → k = encodePointer r
  known : ∀ q changed, st.ancestorChanged.get (encodePointer q) = some changed →
    changed = shallowStructureChanged (readValueAtPath before q) (readValueAtPath after q)
  paths : ∀ q, st.paths.has (encodePointer q) = true ↔ shown q

variable {shown : ValuePath → Prop}

theorem ReportState.Sound.congr {shown' : ValuePath → Prop} {st : ReportState}
    (h : st.Sound before after shown) (hshown : ∀ q, shown q ↔ shown' q) :
    st.Sound before after shown' :=
  ⟨h.keyed, h.known, fun q => (h.paths q).trans (hshown q)⟩

theorem has_set_pointer (m : JsMap JsString ValuePath) (p q : ValuePath) :
    (m.set (encodePointer p) p).has (encodePointer q) = true ↔
      m.has (encodePointer q) = true ∨ q = p := by
  by_cases h : p = q
  · simp [JsMap.has, h]
  · have hne : encodePointer p ≠ encodePointer q := fun heq => h (encodePointer_injective heq)
    simp [JsMap.has, JsMap.get_set_other _ hne, Ne.symm h]

/-- A path more is shown. -/
theorem ReportState.Sound.show {st : ReportState}
    (h : st.Sound before after shown) (p : ValuePath) :
    ReportState.Sound before after (fun q => shown q ∨ q = p)
      { st with paths := st.paths.set (encodePointer p) p } where
  keyed k r hget := by
    rw [JsMap.get_set] at hget
    split at hget
    · rename_i heq
      cases hget
      exact heq.symm
    · exact h.keyed k r hget
  known := h.known
  paths q := by rw [has_set_pointer, h.paths]

theorem ReportState.Sound.reportAncestor {st : ReportState}
    (h : st.Sound before after shown) {path : ValuePath} {n : Nat} (hn : n ≤ path.length) :
    (reportAncestor before after path st n).Sound before after fun q => shown q ∨
      q = path.take n ∧ shallowStructureChanged (readValueAtPath before (path.take n))
        (readValueAtPath after (path.take n)) = true := by
  unfold Reactivity.reportAncestor
  rw [getD_prefixPointers hn]
  dsimp only
  -- Known or not, what is taken for changed is what the documents say.
  have hknown : (st.ancestorChanged.get (encodePointer (path.take n))).getD
      (shallowStructureChanged (readValueAtPath before (path.take n))
        (readValueAtPath after (path.take n))) =
      shallowStructureChanged (readValueAtPath before (path.take n))
        (readValueAtPath after (path.take n)) := by
    cases hget : st.ancestorChanged.get (encodePointer (path.take n)) with
    | none => rfl
    | some changed => exact h.known _ _ hget
  rw [hknown]
  generalize hchanged : shallowStructureChanged (readValueAtPath before (path.take n))
    (readValueAtPath after (path.take n)) = changed
  have hst : (if (st.ancestorChanged.get (encodePointer (path.take n))).isSome then st
      else { st with ancestorChanged :=
        st.ancestorChanged.set (encodePointer (path.take n)) changed }).Sound before after shown := by
    split
    · exact h
    · refine ⟨h.keyed, fun q c hget => ?_, h.paths⟩
      by_cases heq : path.take n = q
      · rw [heq, JsMap.get_set_self] at hget
        cases hget
        rw [← heq, hchanged]
      · rw [JsMap.get_set_other _ fun hp => heq (encodePointer_injective hp)] at hget
        exact h.known q c hget
  generalize (if (st.ancestorChanged.get (encodePointer (path.take n))).isSome then st
    else { st with ancestorChanged :=
      st.ancestorChanged.set (encodePointer (path.take n)) changed }) = st' at hst
  split
  · rename_i hshow
    rw [Bool.and_eq_true] at hshow
    refine (hst.show (path.take n)).congr fun q => ?_
    rw [hshow.1]
    simp
  · rename_i hshow
    refine hst.congr fun q => ?_
    constructor
    · exact .inl
    · rintro (hq | ⟨rfl, rfl⟩)
      · exact hq
      · rw [← hst.paths]
        simpa using hshow

theorem reportAncestors_sound (path : ValuePath) (lengths : List Nat) :
    ∀ {shown : ValuePath → Prop} {st : ReportState}, st.Sound before after shown →
      (∀ n ∈ lengths, n ≤ path.length) →
      (lengths.foldl (Reactivity.reportAncestor before after path) st).Sound before after fun q =>
        shown q ∨ ∃ n ∈ lengths, q = path.take n ∧ shallowStructureChanged
          (readValueAtPath before (path.take n)) (readValueAtPath after (path.take n)) = true := by
  induction lengths with
  | nil =>
    intro shown st h _
    exact h.congr fun q => by simp
  | cons n lengths ih =>
    intro shown st h hn
    have hfirst := h.reportAncestor (hn n List.mem_cons_self)
    refine (ih hfirst fun m hm => hn m (List.mem_cons_of_mem _ hm)).congr fun q => ?_
    simp only [List.mem_cons, exists_eq_or_imp, or_assoc]

/-- What one written path shows. -/
def ShownBy (before after : FabricValue) (w q : ValuePath) : Prop :=
  Differs before after w ∧ q <+: w ∧ (q = w ∨ q ≠ [] ∧ ShapeDiffers before after q)

section

variable (hb : wellFormed before = true) (ha : wellFormed after = true)
include hb ha

theorem shallowStructureChanged_read (q : ValuePath) :
    shallowStructureChanged (readValueAtPath before q) (readValueAtPath after q) = true ↔
      ShapeDiffers before after q :=
  shallowStructureChanged_iff (wellFormed_readValueAtPath hb) (wellFormed_readValueAtPath ha)

/-- The ancestors compared for a path are its proper prefixes but the root. -/
theorem shown_of_ancestors {path q : ValuePath} :
    (∃ n ∈ List.range' 1 (path.length - 1), q = path.take n ∧ shallowStructureChanged
        (readValueAtPath before (path.take n)) (readValueAtPath after (path.take n)) = true) ↔
      q <+: path ∧ q ≠ path ∧ q ≠ [] ∧ ShapeDiffers before after q := by
  constructor
  · rintro ⟨n, hn, rfl, hchanged⟩
    rw [List.mem_range'_1] at hn
    refine ⟨List.take_prefix _ _, fun heq => ?_, fun hnil => ?_,
      (shallowStructureChanged_read hb ha _).1 hchanged⟩
    · have := congrArg List.length heq
      rw [List.length_take] at this
      omega
    · have := congrArg List.length hnil
      rw [List.length_take, List.length_nil] at this
      omega
  · rintro ⟨hinitial, hne, hnil, hshape⟩
    have htake : q = path.take q.length := List.prefix_iff_eq_take.1 hinitial
    have hlt : q.length < path.length := by
      refine lt_of_le_of_ne hinitial.length_le fun heq => hne ?_
      exact hinitial.eq_of_length heq
    have hpos : 0 < q.length := List.length_pos_iff.2 hnil
    refine ⟨q.length, List.mem_range'_1.2 (by omega), htake, ?_⟩
    rw [← htake]
    exact (shallowStructureChanged_read hb ha _).2 hshape

theorem ReportState.Sound.reportWrite {shown : ValuePath → Prop} {st : ReportState}
    (h : st.Sound before after shown) (path : ValuePath) :
    (reportWrite before after st path).Sound before after fun q =>
      shown q ∨ ShownBy before after path q := by
  unfold Reactivity.reportWrite
  split
  · rename_i hsame
    rw [valueEqual, decide_eq_true_eq] at hsame
    refine h.congr fun q => ⟨.inl, ?_⟩
    rintro (hq | hq)
    · exact hq
    · exact absurd hsame hq.1
  · rename_i hdiffers
    rw [valueEqual, decide_eq_true_eq] at hdiffers
    have hlengths : ∀ n ∈ List.range' 1 (path.length - 1), n ≤ path.length := by
      intro n hn
      rw [List.mem_range'_1] at hn
      omega
    have hancestors := reportAncestors_sound path _ h hlengths
    dsimp only
    rw [getD_prefixPointers (le_refl _), List.take_length]
    refine (hancestors.show path).congr fun q => ?_
    rw [shown_of_ancestors hb ha, or_assoc]
    refine or_congr_right ?_
    constructor
    · rintro (⟨hinitial, _, hnil, hshape⟩ | rfl)
      · exact ⟨hdiffers, hinitial, .inr ⟨hnil, hshape⟩⟩
      · exact ⟨hdiffers, List.prefix_refl _, .inl rfl⟩
    · rintro ⟨_, hinitial, rfl | ⟨hnil, hshape⟩⟩
      · exact .inr rfl
      · by_cases hq : q = path
        · exact .inr hq
        · exact .inl ⟨hinitial, hq, hnil, hshape⟩

theorem reportWrites_sound (written : List ValuePath) :
    ∀ {shown : ValuePath → Prop} {st : ReportState}, st.Sound before after shown →
      (written.foldl (Reactivity.reportWrite before after) st).Sound before after fun q =>
        shown q ∨ ∃ w ∈ written, ShownBy before after w q := by
  induction written with
  | nil =>
    intro shown st h
    exact h.congr fun q => by simp
  | cons w written ih =>
    intro shown st h
    refine (ih (h.reportWrite hb ha w)).congr fun q => ?_
    simp only [List.mem_cons, exists_eq_or_imp, or_assoc]

/-- The paths built are the written paths whose value differs, and the places above them whose
shape does. -/
theorem mem_buildReactivityPathsForChanges {written : List ValuePath} {r : ValuePath} :
    r ∈ buildReactivityPathsForChanges before after written ↔
      Reported before after written r := by
  have hinitial : ReportState.Sound before after (fun _ => False) ⟨.empty, .empty⟩ :=
    ⟨fun _ _ h => (by cases h), fun _ _ h => (by cases h),
      fun _ => ⟨fun h => (by cases h), False.elim⟩⟩
  have hsound := reportWrites_sound hb ha written hinitial
  rw [buildReactivityPathsForChanges, (List.perm_insertionSort docPathLe _).mem_iff]
  generalize written.foldl (Reactivity.reportWrite before after) ⟨.empty, .empty⟩ = st at hsound
  have hmem : r ∈ st.paths.values ↔ st.paths.has (encodePointer r) = true := by
    rw [JsMap.has_iff, JsMap.values, List.mem_map]
    constructor
    · rintro ⟨⟨k, q⟩, he, rfl⟩
      have hk := hsound.keyed k q (JsMap.get_of_mem he)
      exact ⟨q, hk ▸ he⟩
    · rintro ⟨q, he⟩
      have hk := encodePointer_injective (hsound.keyed _ _ (JsMap.get_of_mem he))
      exact ⟨_, he, hk.symm⟩
  rw [hmem, hsound.paths, false_or]
  rfl

end
end Reactivity

open Pointer

/-- A document as a transaction holds it: absent, or its members. -/
structure DocumentRoot where
  document : Option EntityDocument
  proper : wellFormed ((document.map (·.toValue)).getD .undefined) = true

namespace DocumentRoot

def value (d : DocumentRoot) : FabricValue := (d.document.map (·.toValue)).getD .undefined

theorem wellFormed_value (d : DocumentRoot) : wellFormed d.value = true := d.proper

/-- What is there at the path, if anything is. -/
def at? (d : DocumentRoot) (path : ValuePath) : Option FabricValue :=
  d.document.bind fun document => valueAt document.toValue path

variable {d : DocumentRoot} {p q : ValuePath} {v : FabricValue}

theorem at?_append (d : DocumentRoot) (p q : ValuePath) :
    d.at? (p ++ q) = (d.at? p).bind fun v => valueAt v q := by
  cases hd : d.document with
  | none => simp [at?, hd]
  | some document => simp [at?, hd, valueAt_append]

theorem at?_snoc (d : DocumentRoot) (p : ValuePath) (k : JsString) :
    d.at? (p ++ [k]) = (d.at? p).bind fun v => child v k := by
  rw [at?_append]
  congr 1
  funext v
  rw [valueAt_cons]
  cases child v k <;> rfl

/-- A place is reached through the places above it. -/
theorem at?_of_prefix (h : d.at? q = some v) (hp : p <+: q) : ∃ w, d.at? p = some w := by
  obtain ⟨r, rfl⟩ := hp
  rw [at?_append] at h
  obtain ⟨w, hw, _⟩ := Option.bind_eq_some_iff.1 h
  exact ⟨w, hw⟩

theorem at?_root : d.at? [] = d.document.map (·.toValue) := by
  cases hd : d.document <;> simp [at?, hd]

theorem wellFormed_at? (h : d.at? p = some v) : wellFormed v = true := by
  cases hd : d.document with
  | none => simp [at?, hd] at h
  | some document =>
    have hproper := d.proper
    rw [hd] at hproper
    rw [at?, hd] at h
    exact wellFormed_valueAt hproper h

variable {slots : List (Option FabricValue)}

/-- The document itself is no array. -/
theorem ne_nil_of_array (h : d.at? p = some (.array slots)) :
    p ≠ [] := by
  rintro rfl
  rw [at?_root] at h
  obtain ⟨document, _, hvalue⟩ := Option.map_eq_some_iff.1 h
  cases hvalue

theorem read_of_at? (h : d.at? p = some v) : readValueAtPath d.value p = v := by
  cases hd : d.document with
  | none => simp [at?, hd] at h
  | some document =>
    have hproper := d.proper
    rw [hd] at hproper
    rw [at?, hd] at h
    rw [value, hd]
    exact read_of_valueAt hproper h

theorem read_of_absent (h : d.at? p = none) : readValueAtPath d.value p = .undefined ∨
    ∃ stem slots, p = stem ++ [("length" : JsString)] ∧ d.at? stem = some (.array slots) ∧
      readValueAtPath d.value p = .number (.ofNat slots.length) := by
  cases hd : d.document with
  | none =>
    left
    rw [value, hd]
    exact readValueAtPath_undefined p
  | some document =>
    have hproper := d.proper
    rw [hd] at hproper
    rw [at?, hd] at h
    rw [value, hd]
    cases read_of_missing hproper h with
    | inl hundefined => exact .inl hundefined
    | inr hlength =>
      obtain ⟨stem, slots, hp, hstem, hread⟩ := hlength
      refine .inr ⟨stem, slots, hp, ?_, hread⟩
      rw [at?, hd]
      exact hstem

/-- An array has no member under the segment that reads its length. -/
theorem at?_length {stem : ValuePath}
    (h : d.at? stem = some (.array slots)) : d.at? (stem ++ [("length" : JsString)]) = none := by
  rw [at?_snoc, h]
  rfl

theorem read_length {stem : ValuePath} (h : d.at? stem = some (.array slots)) :
    readValueAtPath d.value (stem ++ [("length" : JsString)]) =
      .number (.ofNat slots.length) := by
  rw [readValueAtPath_append, read_of_at? h]
  rfl

end DocumentRoot

namespace Reactivity

/-- What is at the place itself differs: a leaf or an empty container that is not in both, or a
container that became another kind of value. What only comes or goes with its members differs
at these. -/
def PlaceDiffers (before after : DocumentRoot) (p : ValuePath) : Prop :=
  match before.at? p, after.at? p with
  | none, none => False
  | some v, none => Childless v
  | none, some v => Childless v
  | some v, some w => v ≠ w ∧ ¬SameKind v w

def LengthDiffers (before after : DocumentRoot) (p : ValuePath) : Prop :=
  ∃ slots others, before.at? p = some (.array slots) ∧ after.at? p = some (.array others) ∧
    slots.length ≠ others.length

/-- The place is at or under the written path, or is an element of the array whose length was
written. -/
def CoversPlace (before after : DocumentRoot) (w p : ValuePath) : Prop :=
  w <+: p ∨ ∃ stem k, w = stem ++ [("length" : JsString)] ∧ stem ++ [k] <+: p ∧
    LengthDiffers before after stem

/-- The written paths cover all the places where the documents differ. -/
structure Covers (before after : DocumentRoot) (writtenPaths : List ValuePath) : Prop where
  places : ∀ p, PlaceDiffers before after p → ∃ w ∈ writtenPaths, CoversPlace before after w p
  lengths : ∀ p, LengthDiffers before after p →
    ∃ w ∈ writtenPaths, w <+: p ++ [("length" : JsString)]

/-- A key that one of the documents has, holding `undefined`, and the other does not. -/
def UndefinedSlot (before after : DocumentRoot) (stem : ValuePath) (k : JsString) : Prop :=
  before.at? (stem ++ [k]) = some .undefined ∧ after.at? (stem ++ [k]) = none ∨
    before.at? (stem ++ [k]) = none ∧ after.at? (stem ++ [k]) = some .undefined

section Symmetry

variable {before after : DocumentRoot} {writtenPaths : List ValuePath}

theorem Differs.symm {before after : FabricValue} {p : ValuePath} (h : Differs before after p) :
    Differs after before p := Ne.symm h

theorem ShapeDiffers.symm {before after : FabricValue} {p : ValuePath}
    (h : ShapeDiffers before after p) : ShapeDiffers after before p := Ne.symm h

theorem Reported.symm {before after : FabricValue} {r : ValuePath}
    (h : Reported before after writtenPaths r) : Reported after before writtenPaths r := by
  obtain ⟨w, hw, hdiffers, hinitial, hr⟩ := h
  exact ⟨w, hw, hdiffers.symm, hinitial, hr.imp_right fun h => ⟨h.1, h.2.symm⟩⟩

theorem PlaceDiffers.symm {p : ValuePath} (h : PlaceDiffers before after p) :
    PlaceDiffers after before p := by
  unfold PlaceDiffers at h ⊢
  cases hb : before.at? p with
  | none =>
    cases ha : after.at? p with
    | none => simp [hb, ha] at h
    | some w => simpa [hb, ha] using h
  | some v =>
    cases ha : after.at? p with
    | none => simpa [hb, ha] using h
    | some w =>
      simp only [hb, ha] at h ⊢
      exact ⟨Ne.symm h.1, fun hkind => h.2 hkind.symm⟩

theorem LengthDiffers.symm {p : ValuePath} (h : LengthDiffers before after p) :
    LengthDiffers after before p := by
  obtain ⟨slots, others, hb, ha, hne⟩ := h
  exact ⟨others, slots, ha, hb, Ne.symm hne⟩

theorem Covers.symm (h : Covers before after writtenPaths) : Covers after before writtenPaths where
  places p hp := by
    obtain ⟨w, hw, hcovers⟩ := h.places p hp.symm
    refine ⟨w, hw, ?_⟩
    cases hcovers with
    | inl hinitial => exact .inl hinitial
    | inr hlength =>
      obtain ⟨stem, k, hstem, hk, hdiffers⟩ := hlength
      exact .inr ⟨stem, k, hstem, hk, hdiffers.symm⟩
  lengths p hp := h.lengths p hp.symm

theorem UndefinedSlot.symm {stem : ValuePath} {k : JsString}
    (h : UndefinedSlot before after stem k) : UndefinedSlot after before stem k := by
  cases h with
  | inl h => exact .inr ⟨h.2, h.1⟩
  | inr h => exact .inl ⟨h.2, h.1⟩

end Symmetry

end Reactivity
