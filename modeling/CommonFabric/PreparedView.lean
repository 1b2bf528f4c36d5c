import CommonFabric.PreparedDigest

/-!
# The orders of a prepared digest

Each list of a prepared digest is sorted by texts compared one after another. The order is total,
and two addresses that compare as equal are one address.
-/

namespace Cfc

open KeySort

theorem keysLe_cons {x y : JsString} {xs ys : List JsString} :
    KeysLe (x :: xs) (y :: ys) ↔ x.lt y = true ∨ x = y ∧ KeysLe xs ys := by
  rw [KeysLe, KeysLe, keysLe]
  by_cases h : x = y
  · subst h
    simp [JsString.lt_irrefl]
  · simp [h]

instance : Std.Total KeysLe := ⟨by
  intro xs ys
  induction xs generalizing ys with
  | nil => exact .inl rfl
  | cons x xs ih =>
    cases ys with
    | nil => exact .inr rfl
    | cons y ys =>
      rw [keysLe_cons, keysLe_cons]
      by_cases h : x = y
      · exact (ih ys).imp (fun hle => .inr ⟨h, hle⟩) fun hle => .inr ⟨h.symm, hle⟩
      · cases hlt : x.lt y with
        | true => exact .inl (.inl rfl)
        | false => exact .inr (.inl (JsString.lt_total h hlt))⟩

instance : IsTrans (List JsString) KeysLe := ⟨by
  intro xs ys zs hxy hyz
  induction xs generalizing ys zs with
  | nil => rfl
  | cons x xs ih =>
    cases ys with
    | nil => cases hxy
    | cons y ys =>
      cases zs with
      | nil => cases hyz
      | cons z zs =>
        rw [keysLe_cons] at hxy hyz ⊢
        rcases hxy with hxy | ⟨rfl, hxy⟩
        · rcases hyz with hyz | ⟨rfl, -⟩
          · exact .inl (JsString.lt_trans hxy hyz)
          · exact .inl hxy
        · rcases hyz with hyz | ⟨rfl, hyz⟩
          · exact .inl hyz
          · exact .inr ⟨rfl, ih _ _ hxy hyz⟩⟩

instance : Std.Antisymm KeysLe := ⟨by
  intro xs ys hxy hyx
  induction xs generalizing ys with
  | nil =>
    cases ys with
    | nil => rfl
    | cons y ys => cases hyx
  | cons x xs ih =>
    cases ys with
    | nil => cases hxy
    | cons y ys =>
      rw [keysLe_cons] at hxy hyx
      rcases hxy with hxy | ⟨rfl, hxy⟩
      · rcases hyx with hyx | ⟨rfl, -⟩
        · exact absurd hyx (JsString.lt_asymm hxy)
        · exact absurd rfl (JsString.ne_of_lt hxy)
      · rcases hyx with hyx | ⟨-, hyx⟩
        · exact absurd rfl (JsString.ne_of_lt hyx)
        · rw [ih ys hxy hyx]⟩

theorem scopeName_injective : Function.Injective Scheduler.scopeName := by
  intro a b h
  revert h
  cases a <;> cases b <;> decide

theorem addressKey_injective : Function.Injective addressKey := by
  intro a b h
  simp only [addressKey, List.cons.injEq, and_true] at h
  obtain ⟨hspace, hid, hscope, hpath⟩ := h
  cases a
  cases b
  simp only [CfcAddress.mk.injEq]
  exact ⟨hspace, hid, scopeName_injective hscope, Pointer.encodePointer_injective hpath⟩

theorem recordAddressKey_injective : Function.Injective recordAddressKey := by
  intro a b h
  simp only [recordAddressKey, List.cons_append, List.nil_append, List.cons.injEq] at h
  obtain ⟨hspace, hid, hscope, hpath⟩ := h
  obtain ⟨aspace, aid, ascope, apath⟩ := a
  obtain ⟨bspace, bid, bscope, bpath⟩ := b
  obtain rfl := scopeName_injective hscope
  cases hspace
  cases hid
  have hmark : ("" : JsString) ≠ "meta" := by decide
  cases apath <;> cases bpath <;>
    simp only [List.cons.injEq, and_true, hmark, hmark.symm, false_and, true_and] at hpath
  case payload.payload p q => rw [Pointer.encodePointer_injective hpath]
  case member.member p q => rw [Pointer.encodePointer_injective hpath]

theorem length_addressKey (address : CfcAddress) : (addressKey address).length = 4 := rfl

/-- The last text of a key. -/
theorem append_last_inj {a b : List JsString} {x y : JsString} (h : a ++ [x] = b ++ [y]) :
    a = b ∧ x = y := by
  obtain ⟨hab, hxy⟩ := List.append_inj' h rfl
  exact ⟨hab, List.head_eq_of_cons_eq hxy⟩

theorem dereferenceTraceKey_injective : Function.Injective dereferenceTraceKey := by
  intro a b h
  obtain ⟨haddresses, hkind⟩ := append_last_inj h
  obtain ⟨hsource, htarget⟩ := List.append_inj haddresses (by rw [length_addressKey, length_addressKey])
  obtain ⟨asource, atarget, akind⟩ := a
  obtain ⟨bsource, btarget, bkind⟩ := b
  cases addressKey_injective hsource
  cases addressKey_injective htarget
  have hkinds : akind = bkind := by
    revert hkind
    cases akind <;> cases bkind <;> simp [dereferenceKindText] <;> decide
  rw [hkinds]

theorem consultedGrantKey_injective : Function.Injective consultedGrantKey := by
  intro a b h
  cases a
  cases b
  simpa [consultedGrantKey] using h

theorem manifestStateText_injective : Function.Injective manifestStateText := by
  intro a b h
  revert h
  cases a <;> cases b <;> decide

section Idempotence

variable {α : Type} {hashStringOf : HashSubject → JsString}

theorem sortBy_idem {κ : Type} {le : κ → κ → Prop} [DecidableRel le] [Std.Total le] [IsTrans κ le]
    {key : α → κ} (xs : List α) : sortBy le key (sortBy le key xs) = sortBy le key xs :=
  sortBy_of_pairwise (pairwise_sortBy xs)

theorem dedupeSorted_sortBy_idem {key : α → List JsString} {τ : Type} [DecidableEq τ] {tag : α → τ}
    (xs : List α) :
    dedupeSorted tag (sortBy KeysLe key (dedupeSorted tag (sortBy KeysLe key xs))) =
      dedupeSorted tag (sortBy KeysLe key xs) := by
  have hsorted : (dedupeSorted tag (sortBy KeysLe key xs)).Pairwise
      fun a b => KeysLe (key a) (key b) :=
    (pairwise_sortBy xs).sublist (dedupeSorted_sublist _)
  rw [sortBy_of_pairwise hsorted, dedupeSorted_of_isChain (isChain_dedupeSorted _)]

theorem sortBy_eq_nil {κ : Type} {le : κ → κ → Prop} [DecidableRel le] {key : α → κ} {xs : List α} :
    sortBy le key xs = [] ↔ xs = [] := by
  constructor
  · intro h
    have hperm : (sortBy le key xs).Perm xs := sortBy_perm xs
    rw [h] at hperm
    exact hperm.nil_eq.symm
  · rintro rfl
    rfl

end Idempotence

end Cfc

namespace Cfc

open KeySort

/-- The code unit order of texts. -/
def TextLe (left right : JsString) : Prop := right.lt left = false

instance : DecidableRel TextLe := fun left right =>
  inferInstanceAs (Decidable (right.lt left = false))

instance : Std.Total TextLe := ⟨by
  intro a b
  by_cases h : a = b
  · subst h
    exact .inl (JsString.lt_irrefl a)
  · cases hlt : b.lt a with
    | false => exact .inl hlt
    | true => exact .inr (Bool.eq_false_iff.2 (JsString.lt_asymm hlt))⟩

instance : Std.Antisymm TextLe := ⟨by
  intro a b hab hba
  by_contra hne
  have hlt := JsString.lt_total (Ne.symm hne) hab
  rw [hba] at hlt
  cases hlt⟩

instance : IsTrans JsString TextLe := ⟨by
  intro a b c hab hbc
  rw [TextLe, Bool.eq_false_iff] at *
  intro hca
  by_cases h : c = b
  · exact hab (h ▸ hca)
  · cases hlt : b.lt c with
    | false => exact hbc (JsString.lt_total (fun heq => h heq.symm) hlt)
    | true => exact hab (JsString.lt_trans hlt hca)⟩

theorem sortEntries_eq (entries : List CfcLabelViewEntry) :
    sortEntries entries = sortBy TextLe (fun entry => cfcLabelViewPathKey entry.path) entries := by
  rw [sortEntries]
  split
  case isTrue h =>
    cases entries with
    | nil => rfl
    | cons entry entries =>
      cases entries with
      | nil => rfl
      | cons entry' entries => simp at h
  case isFalse => rfl

section Views

variable (hashStringOf : HashSubject → JsString)

abbrev normalized (clause : FabricValue) : FabricValue :=
  normalizeClause (fun v => hashStringOf (.value v)) clause

/-- What a label says: its clauses in their canonical form, and its integrity. -/
def canonicalLabel (label : IFCLabel) : IFCLabel :=
  ⟨present ((labelValues label .confidentiality).map (normalized hashStringOf)),
    present (labelValues label .integrity)⟩

/-- What the entries of a view say, of those that say something: a path, and a label. -/
def viewFacts (view : Option CfcLabelView) : List CfcLabelViewEntry :=
  ((entriesOf view).filter fun entry => hasCfcLabelValues entry.label).map fun entry =>
    ⟨entry.path, canonicalLabel hashStringOf entry.label, none⟩

variable {hashStringOf}

theorem normalized_normalized (clause : FabricValue) :
    normalized hashStringOf (normalized hashStringOf clause) = normalized hashStringOf clause :=
  normalizeClause_canonical _ clause

theorem canonicalize_clone (label : IFCLabel) :
    canonicalizeCfcLabel hashStringOf (cloneCfcLabel label) = canonicalLabel hashStringOf label := by
  rw [canonicalizeCfcLabel, cloneCfcLabel, canonicalLabel]
  by_cases hnil : labelValues label .confidentiality = []
  · rw [hnil]
    rfl
  · have hsome : present (labelValues label .confidentiality) =
        some (labelValues label .confidentiality) := if_neg hnil
    have hmap : (labelValues label .confidentiality).map (normalized hashStringOf) ≠ [] := by
      simpa using hnil
    have hsome' : present ((labelValues label .confidentiality).map (normalized hashStringOf)) =
        some ((labelValues label .confidentiality).map (normalized hashStringOf)) := if_neg hmap
    rw [hsome, hsome']
    simp only
    split
    case isTrue => rfl
    case isFalse hor =>
      have hsame : (labelValues label .confidentiality).map (normalized hashStringOf) =
          labelValues label .confidentiality := by
        apply (List.map_congr_left _).trans (List.map_id _)
        intro clause hclause
        rw [List.any_eq_true] at hor
        exact normalizeClause_of_not_or _
          (Bool.eq_false_iff.2 fun h => hor ⟨clause, hclause, h⟩)
      rw [hsame]

theorem labelValues_canonicalLabel (label : IFCLabel) (key : LabelKey) :
    labelValues (canonicalLabel hashStringOf label) key =
      match key with
      | .confidentiality => (labelValues label .confidentiality).map (normalized hashStringOf)
      | .integrity => labelValues label .integrity := by
  cases key <;> simp [canonicalLabel, labelValues]

theorem canonicalLabel_idem (label : IFCLabel) :
    canonicalLabel hashStringOf (canonicalLabel hashStringOf label) =
      canonicalLabel hashStringOf label := by
  rw [canonicalLabel, labelValues_canonicalLabel, labelValues_canonicalLabel, List.map_map,
    canonicalLabel]
  have hmap : normalized hashStringOf ∘ normalized hashStringOf = normalized hashStringOf :=
    funext normalized_normalized
  rw [hmap]

theorem hasCfcLabelValues_clone (label : IFCLabel) :
    hasCfcLabelValues (cloneCfcLabel label) = hasCfcLabelValues label := by
  simp [hasCfcLabelValues, LABEL_KEYS, cloneCfcLabel, labelValues]

theorem hasCfcLabelValues_canonical (label : IFCLabel) :
    hasCfcLabelValues (canonicalLabel hashStringOf label) = hasCfcLabelValues label := by
  simp [hasCfcLabelValues, LABEL_KEYS, labelValues_canonicalLabel]

/-- The entries that a link's view is hashed with. -/
def linkEntries (hashStringOf : HashSubject → JsString) (view : Option CfcLabelView) :
    List CfcLabelViewEntry :=
  sortBy TextLe (fun entry => cfcLabelViewPathKey entry.path) (viewFacts hashStringOf view)

theorem linkEntries_eq_nil {view : Option CfcLabelView} :
    linkEntries hashStringOf view = [] ↔ viewFacts hashStringOf view = [] := sortBy_eq_nil

theorem canonicalLinkView_eq (view : Option CfcLabelView) :
    canonicalLinkView hashStringOf view =
      if linkEntries hashStringOf view = [] then view
      else some ⟨linkEntries hashStringOf view⟩ := by
  have hentries : linkEntries hashStringOf view =
      (sortEntries (((entriesOf view).map fun entry =>
        { entry with label := cloneCfcLabel entry.label }).filter
          fun entry => hasCfcLabelValues entry.label)).map (canonicalLinkEntry hashStringOf) := by
    have hsort : ∀ entries : List CfcLabelViewEntry,
        (sortBy TextLe (fun entry => cfcLabelViewPathKey entry.path) entries).map
          (canonicalLinkEntry hashStringOf) =
        sortBy TextLe (fun entry => cfcLabelViewPathKey entry.path)
          (entries.map (canonicalLinkEntry hashStringOf)) :=
      map_sortBy (fun entry => cfcLabelViewPathKey entry.path) (canonicalLinkEntry hashStringOf)
    have hkeep : ((fun entry : CfcLabelViewEntry => hasCfcLabelValues entry.label) ∘
        fun entry : CfcLabelViewEntry => { entry with label := cloneCfcLabel entry.label }) =
        fun entry => hasCfcLabelValues entry.label :=
      funext fun entry => hasCfcLabelValues_clone entry.label
    rw [sortEntries_eq, hsort, linkEntries, viewFacts, List.filter_map, List.map_map, hkeep]
    simp only [Function.comp_def, canonicalLinkEntry, canonicalize_clone]
  rw [canonicalLinkView, cloneCfcLabelView, hentries, viewOf]
  simp only [List.map_eq_nil_iff]
  split
  case h_1 h =>
    rw [if_pos (by simpa using h)]
  case h_2 cloned h =>
    split at h
    case isTrue => cases h
    case isFalse hne =>
      cases h
      rw [if_neg hne]

/-- What is in the canonical entries is in them once and for all. -/
theorem viewFacts_linkEntries (view : Option CfcLabelView) :
    viewFacts hashStringOf (some ⟨linkEntries hashStringOf view⟩) =
      linkEntries hashStringOf view := by
  have hmem : ∀ entry ∈ linkEntries hashStringOf view, ∃ raw : CfcLabelViewEntry,
      hasCfcLabelValues raw.label = true ∧
        entry = ⟨raw.path, canonicalLabel hashStringOf raw.label, none⟩ := by
    intro entry hentry
    rw [linkEntries, mem_sortBy, viewFacts, List.mem_map] at hentry
    obtain ⟨raw, hraw, rfl⟩ := hentry
    exact ⟨raw, (List.mem_filter.1 hraw).2, rfl⟩
  have hfilter : (linkEntries hashStringOf view).filter
      (fun entry => hasCfcLabelValues entry.label) = linkEntries hashStringOf view := by
    rw [List.filter_eq_self]
    intro entry hentry
    obtain ⟨raw, hraw, rfl⟩ := hmem entry hentry
    exact (hasCfcLabelValues_canonical raw.label).trans hraw
  rw [viewFacts, entriesOf, Option.map_some, Option.getD_some, hfilter]
  apply (List.map_congr_left _).trans (List.map_id _)
  intro entry hentry
  obtain ⟨raw, -, rfl⟩ := hmem entry hentry
  simp [canonicalLabel_idem]

theorem linkEntries_linkEntries (view : Option CfcLabelView) :
    linkEntries hashStringOf (some ⟨linkEntries hashStringOf view⟩) =
      linkEntries hashStringOf view := by
  rw [linkEntries, viewFacts_linkEntries]
  exact sortBy_idem _

theorem canonicalLinkView_idem (view : Option CfcLabelView) :
    canonicalLinkView hashStringOf (canonicalLinkView hashStringOf view) =
      canonicalLinkView hashStringOf view := by
  rw [canonicalLinkView_eq view]
  split
  case isTrue h => rw [canonicalLinkView_eq, if_pos h]
  case isFalse h => rw [canonicalLinkView_eq, linkEntries_linkEntries, if_neg h]

end Views

end Cfc
