import CommonFabric.LabelView

/-!
# Rebasing label views

Rebasing a view to a path keeps what stands at the path and below it, and turns what stands above
into a label of the new root, where its class passes down to content. A merge carries the facts of
what it merges and a rebase carries those whose path moves, so the laws of both are laws of sets
of facts and of how one path moves.
-/

namespace Cfc

/-- A fact as a merge takes it in. -/
def LabelFact.ingest (hashStringOf : FabricValue → JsString) (fact : LabelFact) : LabelFact :=
  { fact with atom := Cfc.ingest hashStringOf fact.key fact.atom }

section Merge

variable (hashStringOf : FabricValue → JsString)

theorem ingest_ingest (key : LabelKey) (value : FabricValue) :
    ingest hashStringOf key (ingest hashStringOf key value) = ingest hashStringOf key value := by
  cases key with
  | confidentiality => exact normalizeClause_canonical hashStringOf value
  | integrity => rfl

@[simp] theorem LabelFact.ingest_ingest (fact : LabelFact) :
    (fact.ingest hashStringOf).ingest hashStringOf = fact.ingest hashStringOf := by
  rw [LabelFact.ingest, LabelFact.ingest, Cfc.ingest_ingest]

variable {hashStringOf}

/-- What a joined label lists under a key: each value once, from either side. -/
theorem labelValues_mergeLabel (left : Option IFCLabel) (right : IFCLabel) (key : LabelKey) :
    labelValues (mergeLabel hashStringOf left right) key =
      uniqueCfcAtoms (((left.map (labelValues · key)).getD [] ++ labelValues right key).map
        (ingest hashStringOf key)) := by
  cases key <;> simp [mergeLabel, labelValues]

theorem mergeLabel_present (left : Option IFCLabel) (right : IFCLabel) :
    mergeLabel hashStringOf left right =
      ⟨present (labelValues (mergeLabel hashStringOf left right) .confidentiality),
        present (labelValues (mergeLabel hashStringOf left right) .integrity)⟩ := by
  rw [labelValues_mergeLabel, labelValues_mergeLabel]
  rfl

/-- The map of a merge, after the entries it has seen. -/
structure Gathered (hashStringOf : FabricValue → JsString)
    (byKey : JsMap JsString CfcLabelViewEntry) (seen : List CfcLabelViewEntry) : Prop where
  keyed : ∀ {k e}, byKey.get k = some e → k = labelViewKey e.observes e.path
  values : ∀ {k e}, byKey.get k = some e → ∀ key, (labelValues e.label key).Nodup
  label : ∀ {k e}, byKey.get k = some e →
    e.label = ⟨present (labelValues e.label .confidentiality),
      present (labelValues e.label .integrity)⟩
  carries : ∀ fact, (∃ k e, byKey.get k = some e ∧ e.Carries fact) ↔
    ∃ e ∈ seen, ∃ raw, e.Carries raw ∧ raw.ingest hashStringOf = fact

theorem Gathered.empty : Gathered hashStringOf JsMap.empty [] where
  keyed h := by cases h
  values h := by cases h
  label h := by cases h
  carries fact := by simp

variable {byKey : JsMap JsString CfcLabelViewEntry} {seen : List CfcLabelViewEntry}

/-- What the map holds was taken in before, so it is unchanged when it is taken in again. -/
theorem Gathered.ingested (h : Gathered hashStringOf byKey seen) {k : JsString}
    {e : CfcLabelViewEntry} (hget : byKey.get k = some e) {fact : LabelFact}
    (hcarries : e.Carries fact) : ingest hashStringOf fact.key fact.atom = fact.atom := by
  obtain ⟨-, -, raw, -, hraw⟩ := (h.carries fact).1 ⟨k, e, hget, hcarries⟩
  have hagain := congrArg (LabelFact.ingest hashStringOf) hraw
  rw [LabelFact.ingest_ingest, hraw] at hagain
  exact (congrArg LabelFact.atom hagain).symm

/-- A fact at the key of an entry, of the map or of the entry itself. -/
theorem Gathered.carries_joined (h : Gathered hashStringOf byKey seen) (entry : CfcLabelViewEntry)
    (fact : LabelFact) :
    CfcLabelViewEntry.Carries ⟨entry.path, mergeLabel hashStringOf
      ((byKey.get (labelViewKey entry.observes entry.path)).map (·.label)) entry.label,
      entry.observes⟩ fact ↔
      (∃ e, byKey.get (labelViewKey entry.observes entry.path) = some e ∧ e.Carries fact) ∨
        ∃ raw, entry.Carries raw ∧ raw.ingest hashStringOf = fact := by
  rw [CfcLabelViewEntry.Carries, labelValues_mergeLabel, mem_uniqueCfcAtoms, List.mem_map]
  constructor
  · rintro ⟨hpath, hobserves, value, hvalue, hatom⟩
    rcases List.mem_append.1 hvalue with hold | hnew
    · cases hget : byKey.get (labelViewKey entry.observes entry.path) with
      | none => simp [hget] at hold
      | some e =>
        rw [hget] at hold
        obtain ⟨hobserves', hpath'⟩ := labelViewKey_inj.1 (h.keyed hget)
        have hcarries : e.Carries ⟨e.path, e.observes, fact.key, value⟩ := ⟨rfl, rfl, hold⟩
        rw [h.ingested hget hcarries] at hatom
        exact .inl ⟨e, rfl, hpath'.symm.trans hpath, hobserves'.symm.trans hobserves, hatom ▸ hold⟩
    · exact .inr ⟨⟨entry.path, entry.observes, fact.key, value⟩, ⟨rfl, rfl, hnew⟩,
        LabelFact.ext hpath hobserves rfl hatom⟩
  · rintro (⟨e, hget, hpath, hobserves, hatom⟩ | ⟨raw, ⟨hpath, hobserves, hatom⟩, rfl⟩)
    · obtain ⟨hobserves', hpath'⟩ := labelViewKey_inj.1 (h.keyed hget)
      have hsame := h.ingested hget ⟨hpath, hobserves, hatom⟩
      exact ⟨hpath'.trans hpath, hobserves'.trans hobserves, fact.atom,
        List.mem_append_left _ (by rw [hget]; exact hatom), hsame⟩
    · exact ⟨hpath, hobserves, raw.atom, List.mem_append_right _ hatom, rfl⟩

theorem Gathered.mergeEntry (h : Gathered hashStringOf byKey seen) (entry : CfcLabelViewEntry) :
    Gathered hashStringOf (mergeEntry hashStringOf byKey entry) (seen ++ [entry]) := by
  have hget : ∀ k, (Cfc.mergeEntry hashStringOf byKey entry).get k =
      if labelViewKey entry.observes entry.path = k then
        some ⟨entry.path, mergeLabel hashStringOf
          ((byKey.get (labelViewKey entry.observes entry.path)).map (·.label)) entry.label,
          entry.observes⟩
      else byKey.get k := fun k => JsMap.get_set _ _ _ _
  constructor
  case keyed =>
    intro k e he
    rw [hget] at he
    split at he
    case isTrue hk => cases he; exact hk.symm
    case isFalse => exact h.keyed he
  case values =>
    intro k e he key
    rw [hget] at he
    split at he
    case isTrue =>
      cases he
      rw [labelValues_mergeLabel]
      exact nodup_uniqueCfcAtoms _
    case isFalse => exact h.values he key
  case label =>
    intro k e he
    rw [hget] at he
    split at he
    case isTrue => cases he; exact mergeLabel_present _ _
    case isFalse => exact h.label he
  case carries =>
    intro fact
    simp only [List.mem_append, List.mem_singleton]
    constructor
    · rintro ⟨k, e, he, hcarries⟩
      rw [hget] at he
      split at he
      case isTrue =>
        cases he
        rcases (h.carries_joined entry fact).1 hcarries with ⟨e, he, hold⟩ | hnew
        · obtain ⟨e', he', hraw⟩ := (h.carries fact).1 ⟨_, e, he, hold⟩
          exact ⟨e', .inl he', hraw⟩
        · exact ⟨entry, .inr rfl, hnew⟩
      case isFalse =>
        obtain ⟨e', he', hraw⟩ := (h.carries fact).1 ⟨k, e, he, hcarries⟩
        exact ⟨e', .inl he', hraw⟩
    · rintro ⟨e, he | rfl, hraw⟩
      · obtain ⟨k, e', hk, hcarries⟩ := (h.carries fact).2 ⟨e, he, hraw⟩
        by_cases hkey : labelViewKey entry.observes entry.path = k
        · refine ⟨k, _, by rw [hget, if_pos hkey], ?_⟩
          exact (h.carries_joined entry fact).2 (.inl ⟨e', hkey ▸ hk, hcarries⟩)
        · exact ⟨k, e', by rw [hget, if_neg hkey]; exact hk, hcarries⟩
      · refine ⟨_, _, by rw [hget, if_pos rfl], ?_⟩
        exact (h.carries_joined e fact).2 (.inr hraw)

theorem Gathered.foldl (entries : List CfcLabelViewEntry) (h : Gathered hashStringOf byKey seen) :
    Gathered hashStringOf (entries.foldl (Cfc.mergeEntry hashStringOf) byKey) (seen ++ entries) := by
  induction entries generalizing byKey seen with
  | nil => simpa using h
  | cons entry entries ih => simpa using ih (h.mergeEntry entry)

theorem gathered (hashStringOf : FabricValue → JsString) (views : List (Option CfcLabelView)) :
    Gathered hashStringOf (gatherEntries hashStringOf views) (views.flatMap entriesOf) := by
  have hrun : ∀ (views : List (Option CfcLabelView)) byKey seen, Gathered hashStringOf byKey seen →
      Gathered hashStringOf
        (views.foldl (fun byKey view => (entriesOf view).foldl (Cfc.mergeEntry hashStringOf) byKey)
          byKey) (seen ++ views.flatMap entriesOf) := by
    intro views
    induction views with
    | nil => intro byKey seen h; simpa using h
    | cons view views ih =>
      intro byKey seen h
      simpa using ih _ _ (h.foldl (entriesOf view))
  simpa [gatherEntries] using hrun views _ _ Gathered.empty

theorem mem_merged {views : List (Option CfcLabelView)} {e : CfcLabelViewEntry} :
    e ∈ entriesOf (mergeCfcLabelViews hashStringOf views) ↔
      (∃ k, (gatherEntries hashStringOf views).get k = some e) ∧ hasCfcLabelValues e.label = true := by
  rw [mergeCfcLabelViews, entriesOf_viewOf, (sortEntries_perm _).mem_iff, List.mem_filter,
    JsMap.values, List.mem_map]
  apply and_congr_left'
  constructor
  · rintro ⟨⟨k, e⟩, hk, rfl⟩
    exact ⟨k, JsMap.get_of_mem hk⟩
  · rintro ⟨k, hk⟩
    exact ⟨(k, e), JsMap.mem_of_get hk, rfl⟩

/-- A merge carries the facts of the views it merges, as it takes them in. -/
theorem carries_merge {views : List (Option CfcLabelView)} {fact : LabelFact} :
    Carries (mergeCfcLabelViews hashStringOf views) fact ↔
      ∃ view ∈ views, ∃ raw, Carries view raw ∧ raw.ingest hashStringOf = fact := by
  have hfacts := (gathered hashStringOf views).carries fact
  constructor
  · rintro ⟨e, he, hcarries⟩
    obtain ⟨⟨k, hk⟩, -⟩ := mem_merged.1 he
    obtain ⟨e', he', raw, hraw, hingest⟩ := hfacts.1 ⟨k, e, hk, hcarries⟩
    obtain ⟨view, hview, he'⟩ := List.mem_flatMap.1 he'
    exact ⟨view, hview, raw, ⟨e', he', hraw⟩, hingest⟩
  · rintro ⟨view, hview, raw, ⟨e', he', hraw⟩, hingest⟩
    obtain ⟨k, e, hk, hcarries⟩ :=
      hfacts.2 ⟨e', List.mem_flatMap.2 ⟨view, hview, he'⟩, raw, hraw, hingest⟩
    exact ⟨e, mem_merged.2 ⟨⟨k, hk⟩, hasCfcLabelValues_iff.2 ⟨_, _, hcarries.2.2⟩⟩, hcarries⟩

theorem merged_merge (views : List (Option CfcLabelView)) :
    Merged (mergeCfcLabelViews hashStringOf views) where
  keys := by
    have h := gathered hashStringOf views
    rw [mergeCfcLabelViews, entriesOf_viewOf, ((sortEntries_perm _).map _).nodup_iff]
    apply List.Nodup.of_map (fun c : ValuePath × Option LabelObservationClass =>
      labelViewKey c.2 c.1)
    have hkeys : ((gatherEntries hashStringOf views).values.map fun e =>
        labelViewKey e.observes e.path) = (gatherEntries hashStringOf views).keys := by
      rw [JsMap.values, JsMap.keys, List.map_map]
      apply List.map_congr_left
      rintro ⟨k, e⟩ hk
      exact (h.keyed (JsMap.get_of_mem hk)).symm
    rw [List.map_map]
    apply List.Nodup.sublist (List.Sublist.map _ List.filter_sublist)
    exact hkeys ▸ (gatherEntries hashStringOf views).nodup
  holds e he := (mem_merged.1 he).2
  values e he key := by
    obtain ⟨⟨k, hk⟩, -⟩ := mem_merged.1 he
    exact (gathered hashStringOf views).values hk key
  label e he := by
    obtain ⟨⟨k, hk⟩, -⟩ := mem_merged.1 he
    exact (gathered hashStringOf views).label hk
  view := by rw [mergeCfcLabelViews, entriesOf_viewOf]

end Merge

/-- Where an entry stands after a rebase. At the new root or below it, the path loses the root's.
From above, a label of content comes down to the root, and the labels of the node itself, of its
shape, of its members or of its pointer, stay behind. A `*` of either path matches any segment. -/
def rebasePath (path entryPath : ValuePath) (observes : Option LabelObservationClass) :
    Option ValuePath :=
  if isPrefix path entryPath then some (entryPath.drop path.length)
  else if isPrefix entryPath path then
    if observes = none ∨ observes = some .value then some [] else none
  else none

def rebaseEntry (path : ValuePath) (entry : CfcLabelViewEntry) : Option CfcLabelViewEntry :=
  match rebasePath path entry.path entry.observes with
  | none => none
  | some moved =>
    if hasCfcLabelValues entry.label then some ⟨moved, entry.label, entry.observes⟩ else none

def rebaseCfcLabelView (hashStringOf : FabricValue → JsString) (view : Option CfcLabelView)
    (path : ValuePath) : Option CfcLabelView :=
  match view with
  | none => none
  | some view => mergeCfcLabelViews hashStringOf [viewOf (view.entries.filterMap (rebaseEntry path))]

section Paths

variable {p q e : ValuePath} {observes : Option LabelObservationClass} {s t : JsString}

@[simp] theorem rebasePath_nil : rebasePath [] e observes = some e := by
  simp [rebasePath]

theorem rebasePath_root : rebasePath (s :: p) [] observes =
    if observes = none ∨ observes = some .value then some [] else none := by
  simp [rebasePath, isPrefix]

theorem rebasePath_cons : rebasePath (s :: p) (t :: e) observes =
    if s = t ∨ s = "*" ∨ t = "*" then rebasePath p e observes else none := by
  have hmatch : (t = s ∨ t = ("*" : JsString) ∨ s = ("*" : JsString)) ↔
      (s = t ∨ s = ("*" : JsString) ∨ t = ("*" : JsString)) := by
    rw [eq_comm, or_comm (a := t = _)]
  simp only [rebasePath, isPrefix, Bool.and_eq_true, Bool.or_eq_true, decide_eq_true_eq, or_assoc,
    hmatch, List.length_cons, List.drop_succ_cons]
  by_cases h : s = t ∨ s = ("*" : JsString) ∨ t = ("*" : JsString)
  · simp only [h, true_and, if_true]
  · simp only [h, false_and, if_false]

/-- Moving a path twice is moving it once, by both roots. -/
theorem rebasePath_append (p q e : ValuePath) (observes : Option LabelObservationClass) :
    (rebasePath p e observes).bind (rebasePath q · observes) = rebasePath (p ++ q) e observes := by
  induction p generalizing e with
  | nil => simp
  | cons s p ih =>
    cases e with
    | nil =>
      rw [List.cons_append, rebasePath_root, rebasePath_root]
      by_cases hobserves : observes = none ∨ observes = some .value
      · rw [if_pos hobserves, Option.bind_some]
        cases q with
        | nil => simp
        | cons t q => rw [rebasePath_root, if_pos hobserves]
      · rw [if_neg hobserves, Option.bind_none]
    | cons t e =>
      rw [List.cons_append, rebasePath_cons, rebasePath_cons]
      by_cases hmatch : s = t ∨ s = ("*" : JsString) ∨ t = ("*" : JsString)
      · rw [if_pos hmatch, if_pos hmatch, ih]
      · rw [if_neg hmatch, if_neg hmatch, Option.bind_none]

end Paths

section Rebase

variable {hashStringOf : FabricValue → JsString} {view : Option CfcLabelView} {fact : LabelFact}

theorem rebaseEntry_carries {path : ValuePath} {entry : CfcLabelViewEntry} :
    (∃ e, rebaseEntry path entry = some e ∧ e.Carries fact) ↔
      rebasePath path entry.path entry.observes = some fact.path ∧
        entry.observes = fact.observes ∧ fact.atom ∈ labelValues entry.label fact.key := by
  rw [rebaseEntry]
  cases hmoved : rebasePath path entry.path entry.observes with
  | none => simp
  | some moved =>
    constructor
    · rintro ⟨e, he, hcarries⟩
      simp only [Option.ite_none_right_eq_some, Option.some.injEq] at he
      obtain ⟨-, rfl⟩ := he
      exact ⟨congrArg some hcarries.1, hcarries.2⟩
    · rintro ⟨hpath, hobserves, hatom⟩
      have hlabel := hasCfcLabelValues_iff.2 ⟨_, _, hatom⟩
      exact ⟨⟨moved, entry.label, entry.observes⟩, if_pos hlabel, Option.some.inj hpath, hobserves,
        hatom⟩

/-- A rebase carries the facts whose path moves, at the place it moves to. -/
theorem carries_rebase {path : ValuePath} :
    Carries (rebaseCfcLabelView hashStringOf view path) fact ↔
      ∃ raw, Carries view raw ∧ rebasePath path raw.path raw.observes = some fact.path ∧
        raw.observes = fact.observes ∧ raw.key = fact.key ∧
        ingest hashStringOf raw.key raw.atom = fact.atom := by
  cases view with
  | none => simp [rebaseCfcLabelView]
  | some view =>
    rw [rebaseCfcLabelView, carries_merge]
    constructor
    · rintro ⟨_, hview, raw, ⟨e, he, hcarries⟩, rfl⟩
      rw [List.mem_singleton] at hview
      subst hview
      rw [entriesOf_viewOf, List.mem_filterMap] at he
      obtain ⟨entry, hentry, hrebased⟩ := he
      obtain ⟨hpath, hobserves, hatom⟩ := rebaseEntry_carries.1 ⟨e, hrebased, hcarries⟩
      exact ⟨⟨entry.path, entry.observes, raw.key, raw.atom⟩, ⟨entry, hentry, rfl, rfl, hatom⟩,
        hpath, hobserves, rfl, rfl⟩
    · rintro ⟨raw, ⟨entry, hentry, hpath, hobserves, hatom⟩, hmoved, hclass, hkey, hvalue⟩
      rw [← hpath, ← hobserves] at hmoved
      have hrebased : ∃ e, rebaseEntry path entry = some e ∧
          e.Carries ⟨fact.path, raw.observes, raw.key, raw.atom⟩ :=
        rebaseEntry_carries.2 ⟨hmoved, hobserves, hatom⟩
      obtain ⟨e, he, hcarries⟩ := hrebased
      exact ⟨_, List.mem_singleton_self _, ⟨fact.path, raw.observes, raw.key, raw.atom⟩,
        ⟨e, by rw [entriesOf_viewOf]; exact List.mem_filterMap.2 ⟨entry, hentry, he⟩, hcarries⟩,
        LabelFact.ext rfl hclass hkey hvalue⟩

theorem merged_rebase (view : Option CfcLabelView) (path : ValuePath) :
    Merged (rebaseCfcLabelView hashStringOf view path) := by
  cases view with
  | none =>
    constructor
    case keys => exact List.nodup_nil
    case view => rfl
    all_goals intro entry hentry; cases hentry
  | some view => exact merged_merge _

theorem sameUpToOrder_rebase_rebase (view : Option CfcLabelView) (p q : ValuePath) :
    SameUpToOrder (rebaseCfcLabelView hashStringOf (rebaseCfcLabelView hashStringOf view p) q)
      (rebaseCfcLabelView hashStringOf view (p ++ q)) := by
  apply (merged_rebase _ _).same (merged_rebase _ _)
  intro fact
  rw [carries_rebase, carries_rebase]
  constructor
  · rintro ⟨moved, hmoved, hq, hobserves, hkey, hatom⟩
    obtain ⟨raw, hraw, hp, hobserves', hkey', hatom'⟩ := carries_rebase.1 hmoved
    refine ⟨raw, hraw, ?_, hobserves'.trans hobserves, hkey'.trans hkey, ?_⟩
    · rw [← rebasePath_append, hp, Option.bind_some, hobserves', hq]
    · rw [← hatom, ← hatom', ← hkey', ingest_ingest]
  · rintro ⟨raw, hraw, hpq, hobserves, hkey, hatom⟩
    rw [← rebasePath_append, Option.bind_eq_some_iff] at hpq
    obtain ⟨path, hp, hq⟩ := hpq
    refine ⟨⟨path, raw.observes, raw.key, ingest hashStringOf raw.key raw.atom⟩,
      carries_rebase.2 ⟨raw, hraw, hp, rfl, rfl, rfl⟩, hq, hobserves, hkey, ?_⟩
    rw [← hatom, ingest_ingest]

/-- What a merge of some views carries. -/
def Ingested (hashStringOf : FabricValue → JsString) (views : List (Option CfcLabelView))
    (fact : LabelFact) : Prop :=
  ∃ view ∈ views, ∃ raw, Carries view raw ∧ raw.ingest hashStringOf = fact

variable {views : List (Option CfcLabelView)}

theorem ingested_append {views' : List (Option CfcLabelView)} :
    Ingested hashStringOf (views ++ views') fact ↔
      Ingested hashStringOf views fact ∨ Ingested hashStringOf views' fact := by
  simp only [Ingested, List.mem_append, or_and_right, exists_or]

theorem ingested_cons {view : Option CfcLabelView}
    (hne : views ≠ []) : Ingested hashStringOf (view :: views) fact ↔
      Ingested hashStringOf [view] fact ∨ Ingested hashStringOf views fact := by
  cases views with
  | nil => exact absurd rfl hne
  | cons view' views =>
    have happend : Ingested hashStringOf ([view] ++ view' :: views) fact ↔
        Ingested hashStringOf [view] fact ∨ Ingested hashStringOf (view' :: views) fact :=
      ingested_append
    exact happend

/-- A merged view is taken in as it is. -/
theorem ingested_merge :
    Ingested hashStringOf [mergeCfcLabelViews hashStringOf views] fact ↔
      Ingested hashStringOf views fact := by
  constructor
  · rintro ⟨view, hview, raw, hraw, rfl⟩
    rw [List.mem_singleton.1 hview] at hraw
    obtain ⟨view, hview, raw', hraw', rfl⟩ := carries_merge.1 hraw
    rw [LabelFact.ingest_ingest]
    exact ⟨view, hview, raw', hraw', rfl⟩
  · intro h
    refine ⟨_, List.mem_singleton_self _, fact, carries_merge.2 h, ?_⟩
    obtain ⟨-, -, raw, -, rfl⟩ := h
    exact LabelFact.ingest_ingest hashStringOf raw

/-- Merges of the same facts are the same. -/
theorem sameUpToOrder_merge {views' : List (Option CfcLabelView)}
    (h : ∀ fact, Ingested hashStringOf views fact ↔ Ingested hashStringOf views' fact) :
    SameUpToOrder (mergeCfcLabelViews hashStringOf views)
      (mergeCfcLabelViews hashStringOf views') := by
  apply (merged_merge _).same (merged_merge _)
  intro fact
  rw [carries_merge, carries_merge]
  exact h fact

theorem sameUpToOrder_merge_merge (views : List (Option CfcLabelView)) :
    SameUpToOrder
      (mergeCfcLabelViews hashStringOf
        [mergeCfcLabelViews hashStringOf views, mergeCfcLabelViews hashStringOf views])
      (mergeCfcLabelViews hashStringOf views) := by
  apply sameUpToOrder_merge
  intro fact
  rw [ingested_cons (List.cons_ne_nil _ _), ingested_merge, or_self]

end Rebase

/-- Rebasing to one path and then to another is rebasing to both. Merging does not depend on the
order or the grouping of the views; a view merged with itself is that view merged alone, and one
that a merge or a rebase gave is unchanged. -/
theorem labelViews_rebase_merge (hashStringOf : FabricValue → JsString) :
    (∀ view p q,
      SameUpToOrder (rebaseCfcLabelView hashStringOf (rebaseCfcLabelView hashStringOf view p) q)
        (rebaseCfcLabelView hashStringOf view (p ++ q))) ∧
    (∀ a b c, SameUpToOrder
      (mergeCfcLabelViews hashStringOf [mergeCfcLabelViews hashStringOf [a, b], c])
      (mergeCfcLabelViews hashStringOf [a, mergeCfcLabelViews hashStringOf [b, c]])) ∧
    (∀ views views', SameUpToOrder
      (mergeCfcLabelViews hashStringOf
        [mergeCfcLabelViews hashStringOf views, mergeCfcLabelViews hashStringOf views'])
      (mergeCfcLabelViews hashStringOf (views ++ views'))) ∧
    (∀ views views', SameUpToOrder (mergeCfcLabelViews hashStringOf (views ++ views'))
      (mergeCfcLabelViews hashStringOf (views' ++ views))) ∧
    (∀ view, SameUpToOrder (mergeCfcLabelViews hashStringOf [view, view])
      (mergeCfcLabelViews hashStringOf [view])) ∧
    (∀ views, SameUpToOrder
      (mergeCfcLabelViews hashStringOf
        [mergeCfcLabelViews hashStringOf views, mergeCfcLabelViews hashStringOf views])
      (mergeCfcLabelViews hashStringOf views)) ∧
    ∀ view p, SameUpToOrder
      (mergeCfcLabelViews hashStringOf
        [rebaseCfcLabelView hashStringOf view p, rebaseCfcLabelView hashStringOf view p])
      (rebaseCfcLabelView hashStringOf view p) := by
  constructor
  case left => exact sameUpToOrder_rebase_rebase
  case right =>
    refine ⟨?assoc, ?flat, ?comm, ?twice, sameUpToOrder_merge_merge, ?rebased⟩
    case assoc =>
      intro a b c
      apply sameUpToOrder_merge
      intro fact
      simp only [ingested_cons (List.cons_ne_nil _ _), ingested_merge, or_assoc]
    case flat =>
      intro views views'
      apply sameUpToOrder_merge
      intro fact
      rw [ingested_cons (List.cons_ne_nil _ _), ingested_merge, ingested_merge, ingested_append]
    case comm =>
      intro views views'
      apply sameUpToOrder_merge
      intro fact
      rw [ingested_append, ingested_append, or_comm]
    case twice =>
      intro view
      apply sameUpToOrder_merge
      intro fact
      rw [ingested_cons (List.cons_ne_nil _ _), or_self]
    case rebased =>
      intro view p
      cases view with
      | none => rfl
      | some view => exact sameUpToOrder_merge_merge _

/-- A view whose clause has one alternative says it bare after a merge with itself. -/
theorem merge_twice_unwraps :
    ¬SameUpToOrder
      (mergeCfcLabelViews (fun _ => "")
        [some ⟨[⟨[], ⟨some [orClause [.string "alice"]], none⟩, none⟩]⟩,
          some ⟨[⟨[], ⟨some [orClause [.string "alice"]], none⟩, none⟩]⟩])
      (some ⟨[⟨[], ⟨some [orClause [.string "alice"]], none⟩, none⟩]⟩) := by
  have hmerged : mergeCfcLabelViews (fun _ => "")
      [some ⟨[⟨[], ⟨some [orClause [.string "alice"]], none⟩, none⟩]⟩,
        some ⟨[⟨[], ⟨some [orClause [.string "alice"]], none⟩, none⟩]⟩] =
      some ⟨[⟨[], ⟨some [.string "alice"], none⟩, none⟩]⟩ := by decide +kernel
  rw [hmerged]
  intro h
  have hcontents := Option.some.inj h
  simp [CfcLabelView.contents, CfcLabelViewEntry.contents, orClause] at hcontents

end Cfc
