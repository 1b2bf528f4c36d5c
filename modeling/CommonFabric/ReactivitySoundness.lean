import CommonFabric.ReactivityPaths

/-!
# Which readers the reported paths wake

A read is woken by a reported path that overlaps it, and a shallow read only by one at, above or
right below its own path. All that differ are, but for readers of a key that comes or goes while
it holds `undefined`, and these where another reported path meets them.
-/

open Pointer Scheduler

namespace Reactivity

/-- The path is at or above the place, or right below it. -/
def Near (r p : ValuePath) : Prop := r <+: p ∨ p <+: r ∧ r.length ≤ p.length + 1

/-- A shallow read at the path is woken. -/
def Woken (before after : DocumentRoot) (writtenPaths : List ValuePath) (p : ValuePath) : Prop :=
  ∃ r, Reported before.value after.value writtenPaths r ∧ Near r p

/-- Where a key comes or goes while it holds `undefined`, some written path has a value that
differs, and is near the key's container or below a place near it whose shape differs. -/
def UndefinedSlotsShown (before after : DocumentRoot) (writtenPaths : List ValuePath) : Prop :=
  ∀ stem k, UndefinedSlot before after stem k →
    ∃ w ∈ writtenPaths, Differs before.value after.value w ∧
      (Near w stem ∨ ∃ r, r ≠ [] ∧ r <+: w ∧ ShapeDiffers before.value after.value r ∧ Near r stem)

variable {before after : DocumentRoot} {writtenPaths : List ValuePath} {p q r : ValuePath}

theorem Woken.symm (h : Woken before after writtenPaths p) :
    Woken after before writtenPaths p := by
  obtain ⟨r, hr, hp⟩ := h
  exact ⟨r, hr.symm, hp⟩

theorem woken_iff_written : Woken before after writtenPaths p ↔
    ∃ w ∈ writtenPaths, Differs before.value after.value w ∧
      (Near w p ∨ ∃ r, r ≠ [] ∧ r <+: w ∧ ShapeDiffers before.value after.value r ∧ Near r p) := by
  constructor
  · rintro ⟨r, ⟨w, hw, hdiffers, hinitial, rfl | hshape⟩, hnear⟩
    · exact ⟨r, hw, hdiffers, .inl hnear⟩
    · exact ⟨w, hw, hdiffers, .inr ⟨r, hshape.1, hinitial, hshape.2, hnear⟩⟩
  · rintro ⟨w, hw, hdiffers, hnear | ⟨r, hroot, hinitial, hshape, hnear⟩⟩
    · exact ⟨w, ⟨w, hw, hdiffers, List.prefix_refl w, .inl rfl⟩, hnear⟩
    · exact ⟨r, ⟨w, hw, hdiffers, hinitial, .inr ⟨hroot, hshape⟩⟩, hnear⟩

theorem undefinedSlotsShown_iff : UndefinedSlotsShown before after writtenPaths ↔
    ∀ stem k, UndefinedSlot before after stem k → Woken before after writtenPaths stem := by
  simp only [woken_iff_written]
  rfl

variable {k : JsString} {v : FabricValue}

theorem UndefinedSlotsShown.woken (h : UndefinedSlotsShown before after writtenPaths)
    {stem : ValuePath} (hslot : UndefinedSlot before after stem k) :
    Woken before after writtenPaths stem :=
  undefinedSlotsShown_iff.1 h stem k hslot

theorem UndefinedSlotsShown.symm (h : UndefinedSlotsShown before after writtenPaths) :
    UndefinedSlotsShown after before writtenPaths :=
  undefinedSlotsShown_iff.2 fun _ _ hslot => (h.woken hslot.symm).symm

theorem Reported.of_written {before after : FabricValue} {w : ValuePath} (hw : w ∈ writtenPaths)
    (hdiffers : Differs before after w) : Reported before after writtenPaths w :=
  ⟨w, hw, hdiffers, List.prefix_refl w, .inl rfl⟩

/-- A place above a reported one is reported where its shape differs. -/
theorem Reported.of_below {before after : FabricValue} (h : Reported before after writtenPaths r)
    (hp : p <+: r) (hroot : p ≠ []) (hshape : ShapeDiffers before after p) :
    Reported before after writtenPaths p := by
  obtain ⟨w, hw, hdiffers, hr, _⟩ := h
  exact ⟨w, hw, hdiffers, hp.trans hr, .inr ⟨hroot, hshape⟩⟩

theorem LengthDiffers.shape (h : LengthDiffers before after p) :
    ShapeDiffers before.value after.value p := by
  obtain ⟨slots, others, hb, ha, hne⟩ := h
  rw [ShapeDiffers, DocumentRoot.read_of_at? hb, DocumentRoot.read_of_at? ha, shapeOf, shapeOf]
  intro heq
  apply hne
  simpa using congrArg List.length (ReadShape.array.inj heq)

theorem LengthDiffers.length (h : LengthDiffers before after p) :
    Differs before.value after.value (p ++ [("length" : JsString)]) := by
  obtain ⟨slots, others, hb, ha, hne⟩ := h
  rw [Differs, DocumentRoot.read_length hb, DocumentRoot.read_length ha]
  intro heq
  apply hne
  exact JsNumber.ofNat_injective (FabricValue.number.inj heq)

theorem LengthDiffers.ne_root (h : LengthDiffers before after p) : p ≠ [] := by
  obtain ⟨slots, others, hb, _⟩ := h
  exact DocumentRoot.ne_nil_of_array hb

theorem eq_undefined_of_shapeOf (h : shapeOf v = shapeOf .undefined) :
    v = .undefined := by
  cases v <;> simp_all [shapeOf]

/-- Right below the root, what is in one document alone differs in shape. -/
theorem shapeDiffers_of_gone {c : FabricValue} (hb : before.at? [k] = some c)
    (ha : after.at? [k] = none) (hc : c ≠ .undefined) :
    ShapeDiffers before.value after.value [k] := by
  have hread : readValueAtPath after.value [k] = .undefined := by
    cases DocumentRoot.read_of_absent ha with
    | inl hread => exact hread
    | inr hlength =>
      obtain ⟨stem, slots, heq, hstem, _⟩ := hlength
      have hne := DocumentRoot.ne_nil_of_array hstem
      have := congrArg List.length heq
      simp at this
      exact absurd this hne
  rw [ShapeDiffers, DocumentRoot.read_of_at? hb, hread]
  exact fun hshape => hc (eq_undefined_of_shapeOf hshape)

theorem woken_of_shown (h : ∃ r, Reported before.value after.value writtenPaths r ∧ r <+: p) :
    Woken before after writtenPaths p := by
  obtain ⟨r, hr, hinitial⟩ := h
  exact ⟨r, hr, .inl hinitial⟩

section

variable (hcovers : Covers before after writtenPaths)
include hcovers

/-- An array is reported, or a place above it, where its length differs. -/
theorem LengthDiffers.shown (h : LengthDiffers before after p) :
    ∃ r, Reported before.value after.value writtenPaths r ∧ r <+: p := by
  obtain ⟨w, hw, hinitial⟩ := hcovers.lengths p h
  have hreported := Reported.of_written hw (h.length.of_prefix hinitial)
  cases List.prefix_concat_iff.1 hinitial with
  | inl heq =>
    subst heq
    exact ⟨p, hreported.of_below (List.prefix_append _ _) h.ne_root h.shape, List.prefix_refl p⟩
  | inr hwp => exact ⟨w, hreported, hwp⟩

/-- A place that differs is reported, or one above it is, where its own value differs. -/
theorem PlaceDiffers.shown (h : PlaceDiffers before after p)
    (hdiffers : Differs before.value after.value p) :
    ∃ r, Reported before.value after.value writtenPaths r ∧ r <+: p := by
  obtain ⟨w, hw, hplace⟩ := hcovers.places p h
  cases hplace with
  | inl hinitial => exact ⟨w, .of_written hw (hdiffers.of_prefix hinitial), hinitial⟩
  | inr hlength =>
    obtain ⟨stem, k, rfl, hk, hne⟩ := hlength
    have hstem := (Reported.of_written hw hne.length).of_below (List.prefix_append _ _) hne.ne_root
      hne.shape
    exact ⟨stem, hstem, (List.prefix_append _ _).trans hk⟩

/-- A path that reads the length of an array in one document alone. -/
theorem shown_of_length_alone {slots : List (Option FabricValue)} (hb : before.at? p = some v)
    (hv : ∀ others, v ≠ .array others) (ha : after.at? p = some (.array slots)) :
    ∃ r, Reported before.value after.value writtenPaths r ∧ r <+: p := by
  have hne : v ≠ .array slots := hv slots
  apply PlaceDiffers.shown hcovers
  · simp only [PlaceDiffers, hb, ha]
    refine ⟨hne, fun hkind => ?_⟩
    cases hkind with
    | arrays others slots => exact hv others rfl
  · rw [Differs, DocumentRoot.read_of_at? hb, DocumentRoot.read_of_at? ha]
    exact hne

/-- A leaf or an empty container that is in one document alone is shown, unless it is an
`undefined` that a key holds. -/
theorem shown_of_childless_gone
    (hb : before.at? p = some v) (ha : after.at? p = none) (hv : Childless v) :
    (∃ r, Reported before.value after.value writtenPaths r ∧ r <+: p) ∨
      ∃ stem k, p = stem ++ [k] ∧ UndefinedSlot before after stem k := by
  cases DocumentRoot.read_of_absent ha with
  | inl hread =>
    by_cases hundefined : v = .undefined
    · subst hundefined
      right
      cases List.eq_nil_or_concat p with
      | inl hnil =>
        subst hnil
        rw [DocumentRoot.at?_root] at hb
        obtain ⟨document, _, hvalue⟩ := Option.map_eq_some_iff.1 hb
        cases hvalue
      | inr hconcat =>
        obtain ⟨stem, k, heq⟩ := hconcat
        rw [List.concat_eq_append] at heq
        subst heq
        exact ⟨stem, k, rfl, .inl ⟨hb, ha⟩⟩
    · left
      apply PlaceDiffers.shown hcovers
      · simpa [PlaceDiffers, hb, ha] using hv
      · rw [Differs, DocumentRoot.read_of_at? hb, hread]
        exact hundefined
  | inr hlength =>
    obtain ⟨stem, slots, rfl, hstem, _⟩ := hlength
    left
    obtain ⟨u, hu⟩ := DocumentRoot.at?_of_prefix hb (List.prefix_append _ _)
    have hne : ∀ others, u ≠ .array others := by
      rintro others rfl
      rw [DocumentRoot.at?_length hu] at hb
      cases hb
    obtain ⟨r, hr, hinitial⟩ := shown_of_length_alone hcovers hu hne hstem
    exact ⟨r, hr, hinitial.trans (List.prefix_append _ _)⟩

/-- What is in one document alone meets a reported path, or a key that holds `undefined`. -/
theorem met_of_gone (hb : before.at? p = some v) (ha : after.at? p = none) :
    (∃ r, Reported before.value after.value writtenPaths r ∧ (r <+: p ∨ p <+: r)) ∨
      ∃ stem k, UndefinedSlot before after stem k ∧ p <+: stem ++ [k] := by
  obtain ⟨q, c, hq, hc⟩ := exists_childless v
  have hb' : before.at? (p ++ q) = some c := by rw [DocumentRoot.at?_append, hb]; exact hq
  have ha' : after.at? (p ++ q) = none := by rw [DocumentRoot.at?_append, ha]; rfl
  cases shown_of_childless_gone hcovers hb' ha' hc with
  | inl hshown =>
    obtain ⟨r, hr, hinitial⟩ := hshown
    exact .inl ⟨r, hr, List.prefix_or_prefix_of_prefix hinitial (List.prefix_append p q)⟩
  | inr hslot =>
    obtain ⟨stem, k, heq, hslot⟩ := hslot
    exact .inr ⟨stem, k, hslot, heq ▸ List.prefix_append p q⟩

variable (hslots : UndefinedSlotsShown before after writtenPaths)
include hslots

section

variable (hshape : ShapeDiffers before.value after.value p)
include hshape

/-- A shallow read of a container is woken where a child is in one document alone. -/
theorem woken_of_child_gone {c : FabricValue} (hb : before.at? (p ++ [k]) = some c)
    (ha : after.at? (p ++ [k]) = none) : Woken before after writtenPaths p := by
  have hmet : Woken before after writtenPaths p ∨
      ∃ r, Reported before.value after.value writtenPaths r ∧
        (r <+: p ++ [k] ∨ p ++ [k] <+: r) := by
    cases met_of_gone hcovers hb ha with
    | inl hmet => exact .inr hmet
    | inr hslot =>
      obtain ⟨stem, k', hslot, hinitial⟩ := hslot
      have hstem := hslots.woken hslot
      cases List.prefix_concat_iff.1 hinitial with
      | inl heq =>
        left
        rw [List.append_inj_left' heq rfl]
        exact hstem
      | inr hbelow =>
        right
        obtain ⟨r, hr, hrs⟩ := hstem
        refine ⟨r, hr, ?_⟩
        cases hrs with
        | inl habove => exact List.prefix_or_prefix_of_prefix habove hbelow
        | inr hunder => exact .inr (hbelow.trans hunder.1)
  cases hmet with
  | inl hwoken => exact hwoken
  | inr hmet =>
    obtain ⟨r, hr, hrp⟩ := hmet
    cases hrp with
    | inl habove =>
      refine ⟨r, hr, ?_⟩
      cases List.prefix_concat_iff.1 habove with
      | inl heq =>
        subst heq
        exact .inr ⟨List.prefix_append _ _, by simp⟩
      | inr hrp => exact .inl hrp
    | inr hunder =>
      by_cases hroot : p = []
      · subst hroot
        by_cases hc : c = .undefined
        · subst hc
          exact hslots.woken (.inl ⟨hb, ha⟩)
        · refine ⟨[k], hr.of_below hunder (List.cons_ne_nil _ _) ?_, .inr ⟨List.nil_prefix, ?_⟩⟩
          · exact shapeDiffers_of_gone hb ha hc
          · simp
      · have hp := hr.of_below ((List.prefix_append _ _).trans hunder) hroot hshape
        exact ⟨p, hp, .inl (List.prefix_refl p)⟩

/-- The reader of a place that is in one document alone is woken. -/
theorem woken_of_gone (hb : before.at? p = some v) (ha : after.at? p = none) :
    Woken before after writtenPaths p := by
  by_cases hv : Childless v
  · apply woken_of_shown
    apply PlaceDiffers.shown hcovers _ hshape.differs
    simpa [PlaceDiffers, hb, ha] using hv
  · obtain ⟨k, hk⟩ := not_forall.1 hv
    obtain ⟨c, hc⟩ := Option.ne_none_iff_exists'.1 hk
    apply woken_of_child_gone hcovers hslots hshape (k := k) (c := c)
    · rw [DocumentRoot.at?_snoc, hb]
      exact hc
    · rw [DocumentRoot.at?_snoc, ha]
      rfl

/-- The reader of a container is woken where a child is in one document alone. -/
theorem woken_of_child_alone {w : FabricValue} (hb : before.at? p = some v)
    (ha : after.at? p = some w) (hk : (child v k).isSome ≠ (child w k).isSome) :
    Woken before after writtenPaths p := by
  have hb' : before.at? (p ++ [k]) = child v k := by rw [DocumentRoot.at?_snoc, hb]; rfl
  have ha' : after.at? (p ++ [k]) = child w k := by rw [DocumentRoot.at?_snoc, ha]; rfl
  cases hc : child v k with
  | some c =>
    cases hd : child w k with
    | some d => rw [hc, hd] at hk; exact absurd rfl hk
    | none => exact woken_of_child_gone hcovers hslots hshape (hb'.trans hc) (ha'.trans hd)
  | none =>
    cases hd : child w k with
    | none => rw [hc, hd] at hk; exact absurd rfl hk
    | some d =>
      exact (woken_of_child_gone hcovers.symm hslots.symm hshape.symm (ha'.trans hd)
        (hb'.trans hc)).symm

/-- The reader of a place that is in both documents is woken. -/
theorem woken_of_both {w : FabricValue} (hb : before.at? p = some v) (ha : after.at? p = some w) :
    Woken before after writtenPaths p := by
  have hne : shapeOf v ≠ shapeOf w := by
    rw [ShapeDiffers, DocumentRoot.read_of_at? hb, DocumentRoot.read_of_at? ha] at hshape
    exact hshape
  by_cases hkind : SameKind v w
  · cases hkind with
    | records fields others =>
      have hv := DocumentRoot.wellFormed_at? hb
      have hw := DocumentRoot.wellFormed_at? ha
      rw [wellFormed, Bool.and_eq_true, decide_eq_true_eq] at hv hw
      obtain ⟨k, hk⟩ := exists_key_of_shape hv.1 hw.1 hne
      exact woken_of_child_alone hcovers hslots hshape hb ha hk
    | arrays slots others =>
      by_cases hlength : slots.length = others.length
      · obtain ⟨k, hk⟩ := exists_index_of_shape hlength hne
        exact woken_of_child_alone hcovers hslots hshape hb ha hk
      · exact woken_of_shown (LengthDiffers.shown hcovers ⟨slots, others, hb, ha, hlength⟩)
  · apply woken_of_shown
    apply PlaceDiffers.shown hcovers _ hshape.differs
    simp only [PlaceDiffers, hb, ha]
    exact ⟨fun heq => hne (congrArg shapeOf heq), hkind⟩

end

/-- The reader of an array's length is woken. -/
theorem woken_of_length {stem : ValuePath}
    (hshape : ShapeDiffers before.value after.value (stem ++ [("length" : JsString)]))
    {slots : List (Option FabricValue)} (hb : before.at? stem = some (.array slots)) :
    Woken before after writtenPaths (stem ++ [("length" : JsString)]) := by
  suffices hshown : ∃ r, Reported before.value after.value writtenPaths r ∧ r <+: stem by
    obtain ⟨r, hr, hinitial⟩ := hshown
    exact ⟨r, hr, .inl (hinitial.trans (List.prefix_append _ _))⟩
  cases ha : after.at? stem with
  | some w =>
    by_cases hw : ∃ others, w = .array others
    · obtain ⟨others, rfl⟩ := hw
      refine LengthDiffers.shown hcovers ⟨slots, others, hb, ha, fun hlength => ?_⟩
      apply hshape
      rw [DocumentRoot.read_length hb, DocumentRoot.read_length ha, hlength]
    · obtain ⟨r, hr, hinitial⟩ := shown_of_length_alone hcovers.symm ha
        (fun others heq => hw ⟨others, heq⟩) hb
      exact ⟨r, hr.symm, hinitial⟩
  | none =>
    have hstem : ShapeDiffers before.value after.value stem := by
      rw [ShapeDiffers, DocumentRoot.read_of_at? hb]
      cases DocumentRoot.read_of_absent ha with
      | inl hread => rw [hread]; exact fun h => by cases h
      | inr hlength =>
        obtain ⟨_, _, _, _, hread⟩ := hlength
        rw [hread]
        exact fun h => by cases h
    obtain ⟨r, hr, hrs⟩ := woken_of_gone hcovers hslots hstem hb ha
    cases hrs with
    | inl habove => exact ⟨r, hr, habove⟩
    | inr hunder =>
      exact ⟨stem, hr.of_below hunder.1 (DocumentRoot.ne_nil_of_array hb) hstem,
        List.prefix_refl stem⟩

/-- Each shallow read of a shape that differs is woken. -/
theorem woken_of_shapeDiffers
    (hshape : ShapeDiffers before.value after.value p) : Woken before after writtenPaths p := by
  cases hb : before.at? p with
  | some v =>
    cases ha : after.at? p with
    | some w => exact woken_of_both hcovers hslots hshape hb ha
    | none => exact woken_of_gone hcovers hslots hshape hb ha
  | none =>
    cases ha : after.at? p with
    | some w => exact (woken_of_gone hcovers.symm hslots.symm hshape.symm ha hb).symm
    | none =>
      cases DocumentRoot.read_of_absent hb with
      | inr hlength =>
        obtain ⟨stem, slots, rfl, hstem, _⟩ := hlength
        exact woken_of_length hcovers hslots hshape hstem
      | inl hbefore =>
        cases DocumentRoot.read_of_absent ha with
        | inr hlength =>
          obtain ⟨stem, slots, rfl, hstem, _⟩ := hlength
          exact (woken_of_length hcovers.symm hslots.symm hshape.symm hstem).symm
        | inl hafter => exact absurd (by rw [hbefore, hafter]) hshape

end

/-- A value that differs differs in shape somewhere at or below its path. -/
theorem exists_shapeDiffers (h : Differs before.value after.value p) :
    ∃ q, ShapeDiffers before.value after.value (p ++ q) := by
  obtain ⟨q, hq⟩ := exists_shape_ne (wellFormed_readValueAtPath before.wellFormed_value)
    (wellFormed_readValueAtPath after.wellFormed_value) h
  refine ⟨q, ?_⟩
  rw [ShapeDiffers, readValueAtPath_append, readValueAtPath_append]
  exact hq

theorem child_read_of_absent {d : DocumentRoot} (h : d.at? (p ++ [k]) = none) :
    child (readValueAtPath d.value p) k = none := by
  cases hp : d.at? p with
  | some v =>
    rw [DocumentRoot.at?_snoc, hp] at h
    rw [DocumentRoot.read_of_at? hp]
    exact h
  | none =>
    cases DocumentRoot.read_of_absent hp with
    | inl hread => rw [hread]; rfl
    | inr hlength =>
      obtain ⟨_, _, _, _, hread⟩ := hlength
      rw [hread]
      rfl

theorem shapeDiffers_of_child_gone
    (hb : before.at? (p ++ [k]) = some v) (ha : after.at? (p ++ [k]) = none) :
    ShapeDiffers before.value after.value p := by
  obtain ⟨u, hu⟩ := DocumentRoot.at?_of_prefix hb (List.prefix_append _ _)
  rw [DocumentRoot.at?_snoc, hu] at hb
  have hv : child u k = some v := hb
  intro hshape
  have hsome := child_isSome_of_shape hshape k
  rw [DocumentRoot.read_of_at? hu, hv, child_read_of_absent ha] at hsome
  cases hsome

/-- A key that comes or goes changes the shape, whatever it holds. -/
theorem UndefinedSlot.shape {stem : ValuePath}
    (h : UndefinedSlot before after stem k) : ShapeDiffers before.value after.value stem := by
  cases h with
  | inl hgone => exact shapeDiffers_of_child_gone hgone.1 hgone.2
  | inr hcame => exact (shapeDiffers_of_child_gone hcame.2 hcame.1).symm

theorem nonRecursiveReadMayOverlapWrite_iff :
    nonRecursiveReadMayOverlapWrite p r = true ↔ Near r p := by
  rw [Near, nonRecursiveReadMayOverlapWrite, Bool.and_eq_true, decide_eq_true_eq, arraysOverlap_iff]
  constructor
  · rintro ⟨hlength, habove | hunder⟩
    · exact .inl habove
    · exact .inr ⟨hunder, hlength⟩
  · rintro (habove | ⟨hunder, hlength⟩)
    · have := habove.length_le
      exact ⟨by omega, .inl habove⟩
    · exact ⟨hlength, .inr hunder⟩

theorem woken_iff : Woken before after writtenPaths p ↔
    ∃ r ∈ buildReactivityPathsForChanges before.value after.value writtenPaths,
      nonRecursiveReadMayOverlapWrite p r = true := by
  simp only [mem_buildReactivityPathsForChanges before.wellFormed_value after.wellFormed_value,
    nonRecursiveReadMayOverlapWrite_iff]
  rfl

/-- Written paths that cover what differs wake all the readers of it exactly where they wake the
readers of each container with a key that comes or goes while it holds `undefined`. -/
theorem reactivity_paths_sound (hcovers : Covers before after writtenPaths) :
    ((∀ p, Differs before.value after.value p →
        ∃ r ∈ buildReactivityPathsForChanges before.value after.value writtenPaths,
          arraysOverlap r p = true) ∧
      ∀ p, ShapeDiffers before.value after.value p →
        ∃ r ∈ buildReactivityPathsForChanges before.value after.value writtenPaths,
          nonRecursiveReadMayOverlapWrite p r = true) ↔
    UndefinedSlotsShown before after writtenPaths := by
  constructor
  · rintro ⟨_, hshallow⟩
    exact undefinedSlotsShown_iff.2 fun stem k hslot => woken_iff.2 (hshallow stem hslot.shape)
  · intro hslots
    refine ⟨fun p hdiffers => ?_, fun p hshape => ?_⟩
    · obtain ⟨q, hq⟩ := exists_shapeDiffers hdiffers
      obtain ⟨r, hr, hrq⟩ := woken_of_shapeDiffers hcovers hslots hq
      refine ⟨r, (mem_buildReactivityPathsForChanges before.wellFormed_value after.wellFormed_value).2 hr, ?_⟩
      rw [arraysOverlap_iff]
      cases hrq with
      | inl habove => exact List.prefix_or_prefix_of_prefix habove (List.prefix_append p q)
      | inr hunder => exact .inr ((List.prefix_append p q).trans hunder.1)
    · exact woken_iff.1 (woken_of_shapeDiffers hcovers hslots hshape)

/-- The whole document written covers all that differs. -/
theorem covers_root (before after : DocumentRoot) : Covers before after [[]] where
  places _ _ := ⟨[], List.mem_singleton_self _, .inl List.nil_prefix⟩
  lengths _ _ := ⟨[], List.mem_singleton_self _, List.nil_prefix⟩

def emptyRecord : DocumentRoot :=
  ⟨some ⟨[("value", .record [])]⟩, by decide⟩

/-- The record holds a key, and the key holds `undefined`. -/
def undefinedMember : DocumentRoot :=
  ⟨some ⟨[("value", .record [("a", .undefined)])]⟩, by decide⟩

theorem reactivity_paths_sound_root :
    ((∀ p, Differs emptyRecord.value undefinedMember.value p →
        ∃ r ∈ buildReactivityPathsForChanges emptyRecord.value undefinedMember.value [[]],
          arraysOverlap r p = true) ∧
      ∀ p, ShapeDiffers emptyRecord.value undefinedMember.value p →
        ∃ r ∈ buildReactivityPathsForChanges emptyRecord.value undefinedMember.value [[]],
          nonRecursiveReadMayOverlapWrite p r = true) ↔
    UndefinedSlotsShown emptyRecord undefinedMember [[]] :=
  reactivity_paths_sound (covers_root _ _)

/-- Only the key itself differs, though the records around it are not the same. -/
theorem covers_undefinedMember : Covers emptyRecord undefinedMember [["value", "a"]] where
  places p hp := by
    refine ⟨_, List.mem_singleton_self _, .inl ?_⟩
    cases p with
    | nil => exact absurd (.records _ _) hp.2
    | cons j p =>
      by_cases hj : j = "value"
      · subst hj
        cases p with
        | nil => exact absurd (.records _ _) hp.2
        | cons k p =>
          by_cases hk : k = "a"
          · subst hk
            exact ⟨p, rfl⟩
          · simp [PlaceDiffers, DocumentRoot.at?, emptyRecord, undefinedMember,
              EntityDocument.toValue, valueAt_cons, child, Fields.get?, Ne.symm hk] at hp
      · simp [PlaceDiffers, DocumentRoot.at?, emptyRecord, undefinedMember,
          EntityDocument.toValue, valueAt_cons, child, Fields.get?, Ne.symm hj] at hp
  lengths p hp := by
    obtain ⟨slots, _, hb, _⟩ := hp
    cases p with
    | nil => cases hb
    | cons j p =>
      by_cases hj : j = "value"
      · subst hj
        cases p with
        | nil => cases hb
        | cons k p => cases hb
      · simp [DocumentRoot.at?, emptyRecord, EntityDocument.toValue, valueAt_cons, child,
          Fields.get?, Ne.symm hj] at hb

/-- A key that comes holding `undefined` is reported to no reader of its record. -/
theorem reactivity_paths_miss_undefined : ¬∀ before after writtenPaths,
    Covers before after writtenPaths →
      (∀ p, Differs before.value after.value p →
        ∃ r ∈ buildReactivityPathsForChanges before.value after.value writtenPaths,
          arraysOverlap r p = true) ∧
      ∀ p, ShapeDiffers before.value after.value p →
        ∃ r ∈ buildReactivityPathsForChanges before.value after.value writtenPaths,
          nonRecursiveReadMayOverlapWrite p r = true := by
  intro hall
  have hshallow := (hall _ _ _ covers_undefinedMember).2 ["value"] fun h => by cases h
  have hnone : buildReactivityPathsForChanges emptyRecord.value undefinedMember.value
      [["value", "a"]] = [] := by decide
  rw [hnone] at hshallow
  obtain ⟨r, hr, _⟩ := hshallow
  cases hr

end Reactivity
