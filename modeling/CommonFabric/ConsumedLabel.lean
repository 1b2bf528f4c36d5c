import CommonFabric.ConsumedLabelIndex

/-!
# The label of what a read consumed

Of the entries above a read's path, or at it, the most specific of each component speaks for the
read; a recursive read consumes those below its path too. The index leaves out entries that do
neither, and so changes no label.
-/

namespace Cfc

/-- How a read observed its path: `labelMetadata` and `enumerate` are classes of entries alone. -/
inductive ReadObservationShape where
  | value
  | shape
  | followRef
  deriving DecidableEq

/-- `none` is `"all"`. -/
abbrev ReadClassSelection := Option ReadObservationShape

/-- `CONSUMED_CLASSES`. -/
def consumedClasses : ReadObservationShape → List ObservationClass
  | .value => [.value, .shape, .enumerate]
  | .shape => [.shape, .enumerate]
  | .followRef => [.followRef]

def entryObservationClass (entry : LabelMapEntry) : Option ObservationClass :=
  match entry.observes with
  | some observes => some observes
  | none => if entry.origin = some .link then some .followRef else none

def readConsumesEntry (selection : ReadClassSelection) (entry : LabelMapEntry) : Bool :=
  match selection with
  | none => true
  | some observation =>
    match entryObservationClass entry with
    | none => observation ≠ .followRef
    | some .labelMetadata => false
    | some entryClass => (consumedClasses observation).contains entryClass

/-- `nonRecursive` is `undefined` where it is not given. -/
structure ConsumingRead where
  nonRecursive : Option Bool
  consumes : ReadClassSelection
  excludeEntry : LabelMapEntry → Bool

def ConsumingRead.keeps (read : ConsumingRead) (entry : LabelMapEntry) : Bool :=
  readConsumesEntry read.consumes entry && !read.excludeEntry entry

/-- The candidates are those the index gives, or else all. -/
def consumedEntriesForRead (entries : List LabelMapEntry) (path : ValuePath) (read : ConsumingRead)
    (index : Option LabelNode) : List LabelMapEntry :=
  let candidates := match index with
    | none => entries
    | some root =>
      (ConsumedLabelIndex.overlapping root path (read.nonRecursive ≠ some true)).map
        IndexedEntry.entry
  candidates.filter read.keeps

/-- A source that is given twice adds nothing the second time. -/
def joinLabelValues (sources : List (Option (List FabricValue))) : Option (List FabricValue) :=
  match uniqueCfcAtoms (sources.flatMap (·.getD [])) with
  | [] => none
  | merged => some merged

def joinLabels (parts : List (Option IFCLabel)) : IFCLabel where
  confidentiality := joinLabelValues (parts.map fun part => part.bind (·.confidentiality))
  integrity := joinLabelValues (parts.map fun part => part.bind (·.integrity))

/-- A template of the runtime: a `*` path of a class, under its own origins. -/
def isRuntimeMintedTemplate (entry : LabelMapEntry) : Bool :=
  (entry.origin = some .structural || entry.origin = some .derived) && entry.path.contains "*"

def appliesAtItsPathOnly (entry : LabelMapEntry) (template : Bool) : Bool :=
  entry.observes = some .enumerate || entry.origin = some .structural && !template

/-- A component, and of the runtime's own origins the shapes apart: `some true` is
`shape-template`, `some false` is `shape`. An entry without an origin is in the legacy one. -/
structure LabelBucket where
  component : Option LabelEntryOrigin
  shape : Option Bool
  deriving DecidableEq

def bucketOf (entry : LabelMapEntry) : LabelBucket where
  component := entry.origin
  shape :=
    if entry.observes = some .shape &&
        (entry.origin = some .derived || entry.origin = some .structural) then
      some (isRuntimeMintedTemplate entry)
    else none

/-- Whether an entry speaks for a path: it is above it or there, and not confined to its own. -/
def appliesTo (path : ValuePath) (entry : LabelMapEntry) : Bool :=
  isPrefix entry.path path &&
    !(appliesAtItsPathOnly entry (isRuntimeMintedTemplate entry) && entry.path.length ≠ path.length)

/-- The labels of the most specific entries so far, with their depth. -/
structure LabelMatch where
  depth : Nat
  labels : List IFCLabel

def addMatch (path : ValuePath) (matched : JsMap LabelBucket LabelMatch) (entry : LabelMapEntry) :
    JsMap LabelBucket LabelMatch :=
  if !appliesTo path entry then matched
  else
    match matched.get (bucketOf entry) with
    | none => matched.set (bucketOf entry) ⟨entry.path.length, [entry.label]⟩
    | some found =>
      if found.depth < entry.path.length then
        matched.set (bucketOf entry) ⟨entry.path.length, [entry.label]⟩
      else if found.depth = entry.path.length then
        matched.set (bucketOf entry) ⟨found.depth, found.labels ++ [entry.label]⟩
      else matched

/-- One label is itself, and more are joined. -/
def joined : List IFCLabel → IFCLabel
  | [label] => label
  | labels => joinLabels (labels.map some)

def labelForEntriesAtPath (entries : List LabelMapEntry) (path : ValuePath) : Option IFCLabel :=
  match (entries.foldl (addMatch path) .empty).values with
  | [] => none
  | found => some (joined (found.map fun found => joined found.labels))

def labelForConsumedEntries (entries : List LabelMapEntry) (path : ValuePath)
    (nonRecursive : Option Bool) : Option IFCLabel :=
  let base := labelForEntriesAtPath entries path
  if nonRecursive = some true then base
  else
    let under := entries.filter fun entry =>
      !(entry.path.length ≤ path.length) && isPrefix path entry.path
    match under with
    | [] => base
    | _ => some (joinLabels (base :: under.map fun entry => some entry.label))

section Holds

variable {entries : List LabelMapEntry} {path : ValuePath} {entry e : LabelMapEntry}
  {label : IFCLabel} {parts : List (Option IFCLabel)} {clause : FabricValue}

/-- The clauses of a label that may be missing. -/
def confidentialityOf (label : Option IFCLabel) : List FabricValue :=
  (label.bind (·.confidentiality)).getD []

theorem mem_joinLabels : clause ∈ confidentialityOf (some (joinLabels parts)) ↔
    ∃ part ∈ parts, clause ∈ confidentialityOf part := by
  have hmem : ∀ sources : List (Option (List FabricValue)),
      clause ∈ (joinLabelValues sources).getD [] ↔ clause ∈ sources.flatMap (·.getD []) := by
    intro sources
    have hunique : clause ∈ uniqueCfcAtoms (sources.flatMap (·.getD [])) ↔
        clause ∈ sources.flatMap (·.getD []) := mem_uniqueCfcAtoms
    rw [← hunique, joinLabelValues]
    cases uniqueCfcAtoms (sources.flatMap (·.getD [])) with
    | nil => rfl
    | cons a merged => rfl
  rw [confidentialityOf, Option.bind_some, joinLabels, hmem]
  simp [confidentialityOf]

theorem mem_joined {labels : List IFCLabel} (hlabel : label ∈ labels)
    (hclause : clause ∈ confidentialityOf (some label)) :
    clause ∈ confidentialityOf (some (joined labels)) := by
  rcases labels with _ | ⟨first, _ | ⟨second, rest⟩⟩
  · cases hlabel
  · rw [joined, ← List.mem_singleton.1 hlabel]
    exact hclause
  · rw [joined]
    · exact mem_joinLabels.2 ⟨some label, List.mem_map_of_mem hlabel, hclause⟩
    · simp

/-- What is held for each bucket is as deep as the deepest entry of it that speaks for the path,
and holds the labels of all that are as deep. -/
structure Matched (path : ValuePath) (entries : List LabelMapEntry)
    (matched : JsMap LabelBucket LabelMatch) : Prop where
  held : ∀ e ∈ entries, appliesTo path e = true → ∃ found, matched.get (bucketOf e) = some found ∧
    e.path.length ≤ found.depth ∧ (e.path.length = found.depth → e.label ∈ found.labels)
  attained : ∀ bucket found, matched.get bucket = some found → ∃ e ∈ entries,
    appliesTo path e = true ∧ bucketOf e = bucket ∧ e.path.length = found.depth

/-- An entry that speaks for the path leaves its bucket as deep as itself and as before. -/
theorem get_addMatch (matched : JsMap LabelBucket LabelMatch)
    (happlies : appliesTo path entry = true) :
    ∃ after, (addMatch path matched entry).get (bucketOf entry) = some after ∧
      entry.path.length ≤ after.depth ∧
      (entry.path.length = after.depth → entry.label ∈ after.labels) ∧
      (∀ found, matched.get (bucketOf entry) = some found → found.depth ≤ after.depth ∧
        (found.depth = after.depth → ∀ label ∈ found.labels, label ∈ after.labels)) ∧
      (entry.path.length = after.depth ∨
        ∃ found, matched.get (bucketOf entry) = some found ∧ found.depth = after.depth) := by
  rw [addMatch, happlies, if_neg (by simp)]
  cases hget : matched.get (bucketOf entry) with
  | none =>
    refine ⟨_, JsMap.get_set_self _ _ _, Nat.le_refl _, fun _ => List.mem_singleton_self _, ?_,
      .inl rfl⟩
    intro found hfound
    cases hfound
  | some found =>
    dsimp only
    by_cases hlt : found.depth < entry.path.length
    · rw [if_pos hlt]
      refine ⟨_, JsMap.get_set_self _ _ _, Nat.le_refl _, fun _ => List.mem_singleton_self _, ?_,
        .inl rfl⟩
      intro found' hfound'
      cases hfound'
      refine ⟨Nat.le_of_lt hlt, fun heq => ?_⟩
      dsimp only at heq
      omega
    · rw [if_neg hlt]
      by_cases heq : found.depth = entry.path.length
      · rw [if_pos heq]
        refine ⟨_, JsMap.get_set_self _ _ _, Nat.le_of_eq heq.symm, fun _ => by simp, ?_,
          .inl heq.symm⟩
        intro found' hfound'
        cases hfound'
        exact ⟨Nat.le_refl _, fun _ label hlabel => List.mem_append_left _ hlabel⟩
      · rw [if_neg heq]
        refine ⟨found, hget, by omega, fun hsame => absurd hsame.symm heq, ?_,
          .inr ⟨found, rfl, rfl⟩⟩
        intro found' hfound'
        cases hfound'
        exact ⟨Nat.le_refl _, fun _ label hlabel => hlabel⟩

theorem get_addMatch_other {matched : JsMap LabelBucket LabelMatch} {bucket : LabelBucket}
    (hne : appliesTo path entry = false ∨ bucketOf entry ≠ bucket) :
    (addMatch path matched entry).get bucket = matched.get bucket := by
  rw [addMatch]
  cases happlies : appliesTo path entry with
  | false => rfl
  | true =>
    have hother : bucketOf entry ≠ bucket := hne.resolve_left (by rw [happlies]; simp)
    rw [if_neg (by simp)]
    split
    · exact JsMap.get_set_other _ hother _
    · split
      · exact JsMap.get_set_other _ hother _
      · split
        · exact JsMap.get_set_other _ hother _
        · rfl

theorem Matched.add {matched : JsMap LabelBucket LabelMatch} (hm : Matched path entries matched)
    (entry : LabelMapEntry) : Matched path (entries ++ [entry]) (addMatch path matched entry) := by
  have hother : ∀ bucket, ¬(appliesTo path entry = true ∧ bucketOf entry = bucket) →
      (addMatch path matched entry).get bucket = matched.get bucket := by
    intro bucket hnot
    apply get_addMatch_other
    rw [← Bool.not_eq_true]
    exact Decidable.not_and_iff_or_not.1 hnot
  refine ⟨fun e he happlies => ?_, fun bucket found hfound => ?_⟩
  · by_cases hsame : appliesTo path entry = true ∧ bucketOf entry = bucketOf e
    · obtain ⟨after, hget, hdepth, hlabel, hkept, _⟩ := get_addMatch matched hsame.1
      rw [hsame.2] at hget hkept
      refine ⟨after, hget, ?_⟩
      rcases List.mem_append.1 he with hold | hnew
      · obtain ⟨found, hfound, hle, hin⟩ := hm.held e hold happlies
        obtain ⟨hdeeper, hlabels⟩ := hkept found hfound
        refine ⟨Nat.le_trans hle hdeeper, fun heq => hlabels (by omega) _ (hin (by omega))⟩
      · rw [List.mem_singleton.1 hnew]
        exact ⟨hdepth, hlabel⟩
    · rw [hother _ hsame]
      rcases List.mem_append.1 he with hold | hnew
      · exact hm.held e hold happlies
      · rw [List.mem_singleton] at hnew
        subst hnew
        exact absurd ⟨happlies, rfl⟩ hsame
  · have hbefore : ∀ found', matched.get bucket = some found' → found'.depth = found.depth →
        ∃ e ∈ entries ++ [entry],
          appliesTo path e = true ∧ bucketOf e = bucket ∧ e.path.length = found.depth := by
      intro found' hfound' hdepth
      obtain ⟨e, he, happlies, hbucket, hlength⟩ := hm.attained bucket found' hfound'
      exact ⟨e, List.mem_append_left _ he, happlies, hbucket, hlength.trans hdepth⟩
    by_cases hsame : appliesTo path entry = true ∧ bucketOf entry = bucket
    · obtain ⟨after, hget, _, _, _, hdepth⟩ := get_addMatch matched hsame.1
      rw [hsame.2] at hget hdepth
      cases hget.symm.trans hfound
      rcases hdepth with hnew | ⟨found', hfound', hold⟩
      · exact ⟨entry, by simp, hsame.1, hsame.2, hnew⟩
      · exact hbefore found' hfound' hold
    · rw [hother _ hsame] at hfound
      exact hbefore found hfound rfl

theorem matched_foldl (path : ValuePath) (entries : List LabelMapEntry) :
    Matched path entries (entries.foldl (addMatch path) .empty) := by
  have hfold : ∀ (rest entries : List LabelMapEntry) (matched : JsMap LabelBucket LabelMatch),
      Matched path entries matched →
        Matched path (entries ++ rest) (rest.foldl (addMatch path) matched) := by
    intro rest
    induction rest with
    | nil =>
      intro entries matched hm
      rwa [List.append_nil]
    | cons entry rest ih =>
      intro entries matched hm
      rw [List.append_cons]
      exact ih _ _ (hm.add entry)
  refine hfold entries [] .empty ⟨fun e he => (by cases he), fun bucket found hfound => ?_⟩
  cases hfound

/-- The most specific entry of its bucket that speaks for the path is in the label. -/
theorem labelForEntriesAtPath_covers (he : e ∈ entries) (happlies : appliesTo path e = true)
    (hdeepest : ∀ e' ∈ entries, appliesTo path e' = true → bucketOf e' = bucketOf e →
      e'.path.length ≤ e.path.length)
    (hclause : clause ∈ confidentialityOf (some e.label)) :
    clause ∈ confidentialityOf (labelForEntriesAtPath entries path) := by
  have hm := matched_foldl path entries
  obtain ⟨found, hfound, hle, hlabel⟩ := hm.held e he happlies
  obtain ⟨e', he', happlies', hbucket, hlength⟩ := hm.attained _ found hfound
  have hdepth : e.path.length = found.depth := by
    have := hdeepest e' he' happlies' hbucket
    omega
  have hvalue : found ∈ (entries.foldl (addMatch path) .empty).values :=
    List.mem_map_of_mem (f := fun e : LabelBucket × LabelMatch => e.2) (JsMap.mem_of_get hfound)
  have hjoined := mem_joined (List.mem_map_of_mem (f := fun found : LabelMatch => joined found.labels)
    hvalue) (mem_joined (hlabel hdepth) hclause)
  rw [labelForEntriesAtPath]
  cases hvalues : (entries.foldl (addMatch path) .empty).values with
  | nil =>
    rw [hvalues] at hvalue
    cases hvalue
  | cons first rest =>
    rw [hvalues] at hjoined
    exact hjoined

/-- Entries that are neither above the path nor there say nothing at it. -/
theorem labelForEntriesAtPath_filter {keeps : LabelMapEntry → Bool}
    (hkeeps : ∀ e ∈ entries, isPrefix e.path path = true → keeps e = true) :
    labelForEntriesAtPath (entries.filter keeps) path = labelForEntriesAtPath entries path := by
  have hfold : ∀ matched, (entries.filter keeps).foldl (addMatch path) matched =
      entries.foldl (addMatch path) matched := by
    induction entries with
    | nil => intro matched; rfl
    | cons e entries ih =>
      intro matched
      have hrest := ih fun e' he' => hkeeps e' (List.mem_cons_of_mem _ he')
      cases hkeep : keeps e with
      | true =>
        rw [List.filter_cons_of_pos hkeep, List.foldl_cons, List.foldl_cons]
        exact hrest _
      | false =>
        have happlies : appliesTo path e = false := by
          rw [Bool.eq_false_iff]
          intro happlies
          rw [appliesTo, Bool.and_eq_true] at happlies
          rw [hkeeps e List.mem_cons_self happlies.1] at hkeep
          cases hkeep
        have hskip : addMatch path matched e = matched := by
          rw [addMatch, happlies]
          rfl
        rw [List.filter_cons_of_neg (by rw [hkeep]; simp), List.foldl_cons, hskip]
        exact hrest _
  rw [labelForEntriesAtPath, labelForEntriesAtPath, hfold]

theorem labelForConsumedEntries_filter (nonRecursive : Option Bool) {keeps : LabelMapEntry → Bool}
    (hkeeps : ∀ e ∈ entries,
      meets (nonRecursive ≠ some true) path e.path = true → keeps e = true) :
    labelForConsumedEntries (entries.filter keeps) path nonRecursive =
      labelForConsumedEntries entries path nonRecursive := by
  have hbase : labelForEntriesAtPath (entries.filter keeps) path =
      labelForEntriesAtPath entries path :=
    labelForEntriesAtPath_filter fun e he hstarts =>
      hkeeps e he (by rw [meets, hstarts, Bool.true_or])
  rw [labelForConsumedEntries, labelForConsumedEntries, hbase]
  by_cases hrecursive : nonRecursive = some true
  · rw [if_pos hrecursive, if_pos hrecursive]
  · have hunder : (entries.filter keeps).filter (fun entry =>
        !(entry.path.length ≤ path.length) && isPrefix path entry.path) =
        entries.filter fun entry => !(entry.path.length ≤ path.length) && isPrefix path entry.path := by
      rw [List.filter_filter]
      refine List.filter_congr fun e he => ?_
      cases hbelow : isPrefix path e.path with
      | false => simp
      | true =>
        rw [hkeeps e he (by simp [meets, hbelow, hrecursive])]
        simp
    rw [if_neg hrecursive, if_neg hrecursive, hunder]

/-- What the index gives a read is what the read consumes without it and may count. -/
theorem consumedEntriesForRead_index (keeps : LabelMapEntry → Bool) (entries : List LabelMapEntry)
    (path : ValuePath) (read : ConsumingRead) :
    consumedEntriesForRead entries path read (some (buildRoot keeps entries)) =
      (consumedEntriesForRead (entries.filter keeps) path read none).filter
        fun e => meets (read.nonRecursive ≠ some true) path e.path := by
  rw [consumedEntriesForRead, consumedEntriesForRead, ConsumedLabelIndex.map_entry_overlapping]
  exact List.filter_comm _ _ _

theorem mem_labelForConsumedEntries_base {nonRecursive : Option Bool}
    (hclause : clause ∈ confidentialityOf (labelForEntriesAtPath entries path)) :
    clause ∈ confidentialityOf (labelForConsumedEntries entries path nonRecursive) := by
  rw [labelForConsumedEntries]
  split
  · exact hclause
  · dsimp only
    split
    · exact hclause
    · exact mem_joinLabels.2 ⟨_, List.mem_cons_self, hclause⟩

/-- A recursive read holds what is below its path. -/
theorem mem_labelForConsumedEntries_under {nonRecursive : Option Bool}
    (hrecursive : nonRecursive ≠ some true) (he : e ∈ entries) (hbelow : isPrefix path e.path = true)
    (hlonger : path.length < e.path.length) (hclause : clause ∈ confidentialityOf (some e.label)) :
    clause ∈ confidentialityOf (labelForConsumedEntries entries path nonRecursive) := by
  have hunder : e ∈ entries.filter fun entry =>
      !(entry.path.length ≤ path.length) && isPrefix path entry.path := by
    rw [List.mem_filter]
    refine ⟨he, ?_⟩
    simp [hbelow, hlonger]
  rw [labelForConsumedEntries, if_neg hrecursive]
  dsimp only
  split
  · rename_i hnone
    rw [hnone] at hunder
    cases hunder
  · exact mem_joinLabels.2 ⟨some e.label,
      List.mem_cons_of_mem _ (List.mem_map_of_mem (f := fun e : LabelMapEntry => some e.label) hunder),
      hclause⟩

/-- An entry as long as the path that is above it is as deep as any. -/
theorem appliesTo_at (habove : isPrefix e.path path = true) (hlength : e.path.length = path.length) :
    appliesTo path e = true := by
  rw [appliesTo, habove]
  simp [hlength]

theorem isPrefix_symm {p q : ValuePath} (hlength : p.length = q.length)
    (h : isPrefix p q = true) : isPrefix q p = true := by
  induction p generalizing q with
  | nil =>
    cases q with
    | nil => rfl
    | cons segment q => cases hlength
  | cons segment p ih =>
    cases q with
    | nil => cases hlength
    | cons other q =>
      rw [isPrefix, Bool.and_eq_true] at h ⊢
      refine ⟨?_, ih (by simpa using hlength) h.2⟩
      simp only [Bool.or_eq_true, decide_eq_true_eq] at h ⊢
      rcases h.1 with (heq | hleft) | hright
      · exact .inl (.inl heq.symm)
      · exact .inr hleft
      · exact .inl (.inr hright)

end Holds

section Covers

/-- A read's label is the same with the index; a recursive one holds what is at its path and below,
and each holds the most specific entry of every component that speaks for the path. -/
theorem consumed_label_covers (keeps : LabelMapEntry → Bool) (entries : List LabelMapEntry)
    (path : ValuePath) (read : ConsumingRead) :
    labelForConsumedEntries
        (consumedEntriesForRead entries path read (some (buildRoot keeps entries))) path
        read.nonRecursive =
      labelForConsumedEntries (consumedEntriesForRead (entries.filter keeps) path read none) path
        read.nonRecursive ∧
    (read.nonRecursive ≠ some true → ∀ e ∈ consumedEntriesForRead entries path read none,
      isPrefix path e.path = true → ∀ clause ∈ confidentialityOf (some e.label),
        clause ∈ confidentialityOf (labelForConsumedEntries
          (consumedEntriesForRead entries path read none) path read.nonRecursive)) ∧
    ∀ e ∈ consumedEntriesForRead entries path read none, appliesTo path e = true →
      (∀ e' ∈ consumedEntriesForRead entries path read none, appliesTo path e' = true →
        bucketOf e' = bucketOf e → e'.path.length ≤ e.path.length) →
      ∀ clause ∈ confidentialityOf (some e.label),
        clause ∈ confidentialityOf (labelForConsumedEntries
          (consumedEntriesForRead entries path read none) path read.nonRecursive) := by
  have hdeepest : ∀ e ∈ consumedEntriesForRead entries path read none, appliesTo path e = true →
      (∀ e' ∈ consumedEntriesForRead entries path read none, appliesTo path e' = true →
        bucketOf e' = bucketOf e → e'.path.length ≤ e.path.length) →
      ∀ clause ∈ confidentialityOf (some e.label),
        clause ∈ confidentialityOf (labelForConsumedEntries
          (consumedEntriesForRead entries path read none) path read.nonRecursive) :=
    fun e he happlies hmost clause hclause => mem_labelForConsumedEntries_base
      (labelForEntriesAtPath_covers he happlies hmost hclause)
  refine ⟨?_, fun hrecursive e he hbelow clause hclause => ?_, hdeepest⟩
  · rw [consumedEntriesForRead_index]
    exact labelForConsumedEntries_filter _ fun e _ hmeets => hmeets
  · rcases Nat.lt_or_ge path.length e.path.length with hlonger | hshorter
    · exact mem_labelForConsumedEntries_under hrecursive he hbelow hlonger hclause
    · -- The entry is at the path, where none is more specific.
      have hlength : path.length = e.path.length := Nat.le_antisymm (isPrefix_length hbelow) hshorter
      have habove := isPrefix_symm hlength hbelow
      refine hdeepest e he (appliesTo_at habove hlength.symm) (fun e' _ happlies' _ => ?_) clause hclause
      rw [appliesTo, Bool.and_eq_true] at happlies'
      rw [← hlength]
      exact isPrefix_length happlies'.1

/-- A container's shape, which a read of a member does not consume. -/
def secretShape : LabelMapEntry :=
  ⟨[], ⟨some [.string "secret"], none⟩, some .structural, some .shape⟩

theorem consumed_label_without_shape :
    isPrefix secretShape.path ["x"] = true ∧
      labelForConsumedEntries (consumedEntriesForRead [secretShape] ["x"]
        ⟨some true, some .shape, fun _ => false⟩ none) ["x"] (some true) = none := by
  decide +kernel

end Covers

end Cfc
