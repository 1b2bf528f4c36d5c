import Mathlib.Data.Multiset.MapFold
import CommonFabric.CfcClause
import CommonFabric.PathPrefixIndex
import CommonFabric.ValuePath

/-!
# Label views and their merge

A label view lists labels by the path they stand at, relative to the node it describes, and by
the class of observations they are for. Its meaning is the set of facts it carries: an atom or a
clause, at a path, for a class. A merge carries the facts of what it merges, each clause in its
canonical form, with one entry for each path and class; two such views that carry the same facts
are the same but for the order in which they list them.
-/

namespace Cfc

/-- A label with no class covers the classes of content. -/
inductive LabelObservationClass where
  | value
  | shape
  | enumerate
  | followRef
  deriving DecidableEq

structure CfcLabelViewEntry where
  path : ValuePath
  label : IFCLabel
  observes : Option LabelObservationClass
  deriving DecidableEq

structure CfcLabelView where
  entries : List CfcLabelViewEntry
  deriving DecidableEq

/-- `LABEL_KEYS`. -/
inductive LabelKey where
  | confidentiality
  | integrity
  deriving DecidableEq

def LABEL_KEYS : List LabelKey := [.confidentiality, .integrity]

/-- What a label lists under a key, nothing where the key is absent. -/
def labelValues (label : IFCLabel) : LabelKey → List FabricValue
  | .confidentiality => label.confidentiality.getD []
  | .integrity => label.integrity.getD []

def hasCfcLabelValues (label : IFCLabel) : Bool :=
  LABEL_KEYS.any fun key => !(labelValues label key).isEmpty

/-- `cfcLabelViewPathKey`. -/
def cfcLabelViewPathKey (path : ValuePath) : JsString := Pointer.encodePointer path

/-- `observes ?? ""`. -/
def observesText : Option LabelObservationClass → JsString
  | none => ""
  | some .value => "value"
  | some .shape => "shape"
  | some .enumerate => "enumerate"
  | some .followRef => "followRef"

/-- The key of a class and a path, with NUL between them. -/
def labelViewKey (observes : Option LabelObservationClass) (path : ValuePath) : JsString :=
  JsString.concat [observesText observes, ⟨[0]⟩, cfcLabelViewPathKey path]

/-- An entry does not sort after another by its path's key. -/
def entryLe (left right : CfcLabelViewEntry) : Prop :=
  (cfcLabelViewPathKey right.path).lt (cfcLabelViewPathKey left.path) = false

instance : DecidableRel entryLe := fun left right =>
  inferInstanceAs (Decidable
    ((cfcLabelViewPathKey right.path).lt (cfcLabelViewPathKey left.path) = false))

def sortEntries (entries : List CfcLabelViewEntry) : List CfcLabelViewEntry :=
  if entries.length < 2 then entries else entries.insertionSort entryLe

/-- A view of some entries, where there are any. -/
def viewOf (entries : List CfcLabelViewEntry) : Option CfcLabelView :=
  if entries = [] then none else some ⟨entries⟩

def entriesOf (view : Option CfcLabelView) : List CfcLabelViewEntry :=
  (view.map (·.entries)).getD []

@[simp] theorem entriesOf_viewOf (entries : List CfcLabelViewEntry) :
    entriesOf (viewOf entries) = entries := by
  rw [viewOf]
  split
  · rename_i h
    exact h.symm
  · rfl

/-- A list of values, left out where it is empty. -/
def present (values : List FabricValue) : Option (List FabricValue) :=
  if values = [] then none else some values

@[simp] theorem present_getD (values : List FabricValue) : (present values).getD [] = values := by
  rw [present]
  split
  · rename_i h
    exact h.symm
  · rfl

section Merge

variable (hashStringOf : FabricValue → JsString)

/-- A clause is normalized as it is merged; the atoms of integrity are not clauses. -/
def ingest : LabelKey → FabricValue → FabricValue
  | .confidentiality, value => normalizeClause hashStringOf value
  | .integrity, value => value

def mergeLabel (left : Option IFCLabel) (right : IFCLabel) : IFCLabel :=
  let merged := fun key => present (uniqueCfcAtoms
    (((left.map (labelValues · key)).getD [] ++ labelValues right key).map (ingest hashStringOf key)))
  ⟨merged .confidentiality, merged .integrity⟩

/-- One entry joined with the entry of its class and path. -/
def mergeEntry (byKey : JsMap JsString CfcLabelViewEntry) (entry : CfcLabelViewEntry) :
    JsMap JsString CfcLabelViewEntry :=
  let key := labelViewKey entry.observes entry.path
  byKey.set key
    ⟨entry.path, mergeLabel hashStringOf ((byKey.get key).map (·.label)) entry.label, entry.observes⟩

def gatherEntries (views : List (Option CfcLabelView)) : JsMap JsString CfcLabelViewEntry :=
  views.foldl (fun byKey view => (entriesOf view).foldl (mergeEntry hashStringOf) byKey) JsMap.empty

def mergeCfcLabelViews (views : List (Option CfcLabelView)) : Option CfcLabelView :=
  viewOf (sortEntries
    ((gatherEntries hashStringOf views).values.filter fun entry => hasCfcLabelValues entry.label))

end Merge

theorem nul_not_mem_observesText (observes : Option LabelObservationClass) :
    (0 : UInt16) ∉ (observesText observes).units := by
  cases observes with
  | none => decide
  | some c => cases c <;> decide

theorem observesText_injective : Function.Injective observesText := by
  intro a b h
  revert h
  cases a with
  | none => cases b with
    | none => simp
    | some c => cases c <;> decide
  | some c => cases b with
    | none => cases c <;> decide
    | some d => cases c <;> cases d <;> decide

/-- Entries of two classes or of two paths are kept apart. -/
theorem labelViewKey_inj {a b : Option LabelObservationClass} {p q : ValuePath} :
    labelViewKey a p = labelViewKey b q ↔ a = b ∧ p = q := by
  constructor
  · intro h
    have hunits : (observesText a).units ++ 0 :: (cfcLabelViewPathKey p).units =
        (observesText b).units ++ 0 :: (cfcLabelViewPathKey q).units := by
      simpa [labelViewKey, JsString.concat] using h
    obtain ⟨h₁, h₂⟩ := JsString.append_separator_inj (nul_not_mem_observesText a)
      (nul_not_mem_observesText b) hunits
    exact ⟨observesText_injective (congrArg JsString.mk h₁),
      Pointer.encodePointer_injective (congrArg JsString.mk h₂)⟩
  · rintro ⟨rfl, rfl⟩
    rfl

theorem sortEntries_perm (entries : List CfcLabelViewEntry) : (sortEntries entries).Perm entries := by
  rw [sortEntries]
  split
  · exact List.Perm.refl _
  · exact List.perm_insertionSort _ _

/-- One atom or clause, of one of the keys, at a path, for a class of observations. -/
@[ext] structure LabelFact where
  path : ValuePath
  observes : Option LabelObservationClass
  key : LabelKey
  atom : FabricValue

def CfcLabelViewEntry.Carries (entry : CfcLabelViewEntry) (fact : LabelFact) : Prop :=
  entry.path = fact.path ∧ entry.observes = fact.observes ∧
    fact.atom ∈ labelValues entry.label fact.key

def Carries (view : Option CfcLabelView) (fact : LabelFact) : Prop :=
  ∃ entry ∈ entriesOf view, entry.Carries fact

@[simp] theorem not_carries_none (fact : LabelFact) : ¬Carries none fact := by
  rintro ⟨entry, hentry, -⟩
  cases hentry

theorem hasCfcLabelValues_iff {label : IFCLabel} :
    hasCfcLabelValues label = true ↔ ∃ key value, value ∈ labelValues label key := by
  rw [hasCfcLabelValues, LABEL_KEYS]
  constructor
  · intro h
    rw [List.any_eq_true] at h
    obtain ⟨key, -, hkey⟩ := h
    rw [Bool.not_eq_true', List.isEmpty_eq_false_iff] at hkey
    exact ⟨key, List.exists_mem_of_ne_nil _ hkey⟩
  · rintro ⟨key, value, hvalue⟩
    have hkey : (labelValues label key).isEmpty = false :=
      List.isEmpty_eq_false_iff.2 (List.ne_nil_of_mem hvalue)
    cases key <;> simp [hkey]

/-- What an entry says, but for the order of its atoms. -/
abbrev EntryContents :=
  ValuePath × Option LabelObservationClass × Option (Multiset FabricValue) ×
    Option (Multiset FabricValue)

def CfcLabelViewEntry.contents (entry : CfcLabelViewEntry) : EntryContents :=
  (entry.path, entry.observes, entry.label.confidentiality.map Multiset.ofList,
    entry.label.integrity.map Multiset.ofList)

def CfcLabelView.contents (view : CfcLabelView) : Multiset EntryContents :=
  view.entries.map CfcLabelViewEntry.contents

/-- Two views are the same up to the order of their entries and of the atoms in each. -/
def SameUpToOrder (left right : Option CfcLabelView) : Prop :=
  left.map CfcLabelView.contents = right.map CfcLabelView.contents

/-- A view as a merge gives it: one entry for each class and path, none without a label, each value
of a label once, and no key without a value. -/
structure Merged (view : Option CfcLabelView) : Prop where
  keys : ((entriesOf view).map fun entry => (entry.path, entry.observes)).Nodup
  holds : ∀ entry ∈ entriesOf view, hasCfcLabelValues entry.label = true
  values : ∀ entry ∈ entriesOf view, ∀ key, (labelValues entry.label key).Nodup
  label : ∀ entry ∈ entriesOf view,
    entry.label = ⟨present (labelValues entry.label .confidentiality),
      present (labelValues entry.label .integrity)⟩
  view : view = viewOf (entriesOf view)

section Same

variable {v w : Option CfcLabelView}

/-- The entry at a class and a path is the only one there. -/
theorem Merged.only (hv : Merged v) {e e' : CfcLabelViewEntry} (he : e ∈ entriesOf v)
    (he' : e' ∈ entriesOf v) (hpath : e.path = e'.path) (hobserves : e.observes = e'.observes) :
    e = e' :=
  List.inj_on_of_nodup_map hv.keys he he' (Prod.ext hpath hobserves)

theorem Merged.mem_labelValues (hv : Merged v) {e : CfcLabelViewEntry} (he : e ∈ entriesOf v)
    {key : LabelKey} {atom : FabricValue} :
    atom ∈ labelValues e.label key ↔ Carries v ⟨e.path, e.observes, key, atom⟩ := by
  constructor
  · intro h
    exact ⟨e, he, rfl, rfl, h⟩
  · rintro ⟨e', he', hpath, hobserves, h⟩
    rw [← hv.only he' he hpath hobserves]
    exact h

theorem present_coe {xs ys : List FabricValue} (h : xs.Perm ys) :
    (present xs).map Multiset.ofList = (present ys).map Multiset.ofList := by
  by_cases hxs : xs = []
  · rw [hxs] at h ⊢
    rw [List.nil_perm.1 h]
  · have hys : ys ≠ [] := by
      intro hys
      rw [hys] at h
      exact hxs h.eq_nil
    rw [present, present, if_neg hxs, if_neg hys, Option.map_some, Option.map_some,
      Multiset.coe_eq_coe.2 h]

/-- Where the facts of one merged view are those of another, so are its entries. -/
theorem Merged.contents_subset (hv : Merged v) (hw : Merged w)
    (h : ∀ fact, Carries v fact ↔ Carries w fact) {e : CfcLabelViewEntry} (he : e ∈ entriesOf v) :
    ∃ e' ∈ entriesOf w, e'.contents = e.contents := by
  obtain ⟨key, value, hvalue⟩ := hasCfcLabelValues_iff.1 (hv.holds e he)
  have hcarries : Carries w ⟨e.path, e.observes, key, value⟩ := (h _).1 ⟨e, he, rfl, rfl, hvalue⟩
  obtain ⟨e', he', hpath, hobserves, -⟩ := hcarries
  have hperm : ∀ key, (labelValues e'.label key).Perm (labelValues e.label key) := by
    intro key
    rw [List.perm_ext_iff_of_nodup (hw.values e' he' key) (hv.values e he key)]
    intro atom
    rw [hw.mem_labelValues he', hv.mem_labelValues he, h, hpath, hobserves]
  refine ⟨e', he', ?_⟩
  rw [CfcLabelViewEntry.contents, CfcLabelViewEntry.contents, hv.label e he, hw.label e' he']
  rw [hpath, hobserves]
  exact congrArg _ (congrArg _ (Prod.ext (present_coe (hperm .confidentiality))
    (present_coe (hperm .integrity))))

theorem Merged.nodup_contents (hv : Merged v) :
    ((entriesOf v).map CfcLabelViewEntry.contents).Nodup := by
  have hkeys := hv.keys
  have hmap : (entriesOf v).map (fun entry => (entry.path, entry.observes)) =
      ((entriesOf v).map CfcLabelViewEntry.contents).map fun c => (c.1, c.2.1) := by
    rw [List.map_map]
    rfl
  rw [hmap] at hkeys
  exact hkeys.of_map

/-- Two merged views that carry the same facts are the same up to order. -/
theorem Merged.same (hv : Merged v) (hw : Merged w)
    (h : ∀ fact, Carries v fact ↔ Carries w fact) : SameUpToOrder v w := by
  have hcontents : ((entriesOf v).map CfcLabelViewEntry.contents).Perm
      ((entriesOf w).map CfcLabelViewEntry.contents) := by
    rw [List.perm_ext_iff_of_nodup hv.nodup_contents hw.nodup_contents]
    intro c
    rw [List.mem_map, List.mem_map]
    constructor
    · rintro ⟨e, he, rfl⟩
      exact hv.contents_subset hw h he
    · rintro ⟨e, he, rfl⟩
      exact hw.contents_subset hv (fun fact => (h fact).symm) he
  rw [SameUpToOrder, hv.view, hw.view, viewOf, viewOf]
  by_cases hnil : entriesOf v = []
  · rw [hnil] at hcontents ⊢
    rw [List.map_nil, List.nil_perm, List.map_eq_nil_iff] at hcontents
    rw [hcontents]
  · have hnil' : entriesOf w ≠ [] := by
      intro hw
      rw [hw, List.map_nil] at hcontents
      exact hnil (List.map_eq_nil_iff.1 hcontents.eq_nil)
    rw [if_neg hnil, if_neg hnil', Option.map_some, Option.map_some]
    exact congrArg some (Multiset.coe_eq_coe.2 hcontents)

end Same

end Cfc
