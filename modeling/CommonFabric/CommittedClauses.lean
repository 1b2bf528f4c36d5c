import CommonFabric.ClauseSubsumption

/-!
# Clauses with committed fields

Persisting a label in another space replaces fields of its atoms by their digests. A clause so
committed subsumes no more than its plaintext, and is subsumed by no more, but for the owners of
personal spaces that are no DIDs.
-/

namespace Cfc

section

variable (hashStringOf : FabricValue → JsString)

/-- `commitCfcFieldValue`. -/
def commitCfcFieldValue (value : FabricValue) : FabricValue :=
  fieldCommitment (hashStringOf (keySorted value))

/-- The second value is the first, with parts of it replaced by their commitments. -/
inductive CommittedForm : FabricValue → FabricValue → Prop
  | same (v : FabricValue) : CommittedForm v v
  | committed {v : FabricValue} (h : fieldCommitment? v = none) :
      CommittedForm v (commitCfcFieldValue hashStringOf v)
  | array {s t : List (Option FabricValue)} (hshape : s.map Option.isSome = t.map Option.isSome)
      (h : ∀ x y, Aligned (.array s) (.array t) x y → CommittedForm x y) :
      CommittedForm (.array s) (.array t)
  | record {f g : Members} (hshape : f.map (·.1) = g.map (·.1))
      (hplain : fieldCommitment? (.record f) = none)
      (h : ∀ x y, Aligned (.record f) (.record g) x y → CommittedForm x y) :
      CommittedForm (.record f) (.record g)

variable {hashStringOf}

variable {v w : FabricValue} {R : FabricValue → FabricValue → Prop}

theorem eq_string_of_form {s : JsString}
    (h : CommittedForm hashStringOf v (.string s)) : v = .string s := by
  cases h with
  | same => rfl

theorem aligned_field {f g : Members} (hshape : f.map (·.1) = g.map (·.1)) {key : JsString}
    {y : FabricValue} (hy : Fields.get? g key = some y) :
    ∃ x, Fields.get? f key = some x ∧ Aligned (.record f) (.record g) x y := by
  have hmem : key ∈ f.map (·.1) := by
    rw [hshape]
    exact mem_keys_iff.2 ⟨y, hy⟩
  obtain ⟨x, hx⟩ := mem_keys_iff.1 hmem
  exact ⟨x, hx, .field hx hy⟩

theorem aligned_slot {s t : List (Option FabricValue)}
    (hshape : s.map Option.isSome = t.map Option.isSome) {i : Nat} {y : FabricValue}
    (hy : t[i]? = some (some y)) :
    ∃ x, s[i]? = some (some x) ∧ Aligned (.array s) (.array t) x y := by
  have hsome : (s.map Option.isSome)[i]? = some true := by
    rw [hshape, List.getElem?_map, hy]
    rfl
  rw [List.getElem?_map] at hsome
  obtain ⟨slot, hslot, hx⟩ := Option.map_eq_some_iff.1 hsome
  obtain ⟨x, rfl⟩ := Option.isSome_iff_exists.1 hx
  exact ⟨x, hslot, .slot hslot hy⟩

theorem isDense_form (h : CommittedForm hashStringOf v w)
    (hv : isDense v = true) : isDense w = true := by
  induction h with
  | same => exact hv
  | committed => exact isDense_fieldCommitment _
  | @array s t hshape _ ih =>
    rw [isDense, slotsAreDense_iff]
    intro slot hslot
    obtain ⟨i, hi⟩ := List.mem_iff_getElem?.1 hslot
    cases slot with
    | none =>
      have hsome : (s.map Option.isSome)[i]? = some false := by
        rw [hshape, List.getElem?_map, hi]
        rfl
      rw [List.getElem?_map] at hsome
      obtain ⟨held, hheld, hnone⟩ := Option.map_eq_some_iff.1 hsome
      rw [isDense] at hv
      obtain ⟨x, rfl, _⟩ := slotsAreDense_iff.1 hv held (List.mem_of_getElem? hheld)
      cases hnone
    | some y =>
      obtain ⟨x, hx, hxy⟩ := aligned_slot hshape hi
      exact ⟨y, rfl, ih x y hxy (hxy.dense hv)⟩
  | @record f g hshape _ _ ih =>
    have hnodup : (g.map (·.1)).Nodup := hshape ▸ (isDense_record.1 hv).1
    rw [isDense_record]
    refine ⟨hnodup, fun field hfield => ?_⟩
    obtain ⟨x, hx, hxy⟩ := aligned_field hshape (get?_of_mem hnodup hfield)
    exact ih x field.2 hxy (hxy.dense hv)

theorem sameParts_refl (hR : ∀ v, R v v) (v : FabricValue) :
    SameParts R v v := by
  cases v with
  | array s =>
    apply SameParts.array
    rw [List.forall₂_same]
    intro slot _
    exact hR _
  | record f =>
    apply SameParts.record
    intro key
    cases Fields.get? f key with
    | none => exact .none
    | some x => exact .some (hR x)
  | _ => exact .leaf rfl (sameValue_refl _)

/-- Committing the members of a record makes no commitment of it. -/
theorem no_commitment_of_form {f g : Members} (hshape : f.map (·.1) = g.map (·.1))
    (hf : fieldCommitment? (.record f) = none)
    (hparts : ∀ x y, Aligned (.record f) (.record g) x y → CommittedForm hashStringOf x y) :
    fieldCommitment? (.record g) = none := by
  rw [Option.eq_none_iff_forall_ne_some]
  intro digest hdigest
  have hg : g = ([("digestOf", .string digest)] : Members) :=
    FabricValue.record.inj (fieldCommitment?_eq_some.1 hdigest)
  subst hg
  obtain ⟨⟨key, held⟩, rfl⟩ := List.length_eq_one_iff.1
    (by simpa using congrArg List.length hshape : f.length = 1)
  obtain rfl : key = "digestOf" := (List.cons.inj hshape).1
  have hget : ∀ v, Fields.get? ([("digestOf", v)] : Members) "digestOf" = some v := fun v => by
    rw [Fields.get?_cons, if_pos rfl]
  have hheld := hparts held (.string digest) (.field (hget held) (hget _))
  rw [eq_string_of_form hheld, ← fieldCommitment, fieldCommitment?_fieldCommitment] at hf
  cases hf

/-- The committed form of a plain value is its commitment, or has its shape. -/
theorem form_cases (hv : isDense v = true)
    (hplain : containsCfcFieldCommitment v = false) (h : CommittedForm hashStringOf v w) :
    w = commitCfcFieldValue hashStringOf v ∨
      (fieldCommitment? w = none ∧ SameParts (CommittedForm hashStringOf) v w) := by
  have hw := isDense_form h hv
  cases h with
  | same => exact .inr ⟨plain_not_commitment hplain, sameParts_refl .same v⟩
  | committed => exact .inl rfl
  | @array s t hshape hparts =>
    refine .inr ⟨rfl, .array ?_⟩
    rw [List.forall₂_iff_get]
    have hlength : s.length = t.length := by
      have := congrArg List.length hshape
      simpa using this
    refine ⟨hlength, fun i hs ht => ?_⟩
    obtain ⟨x, hx, hxs⟩ := slot_of_dense hv hs
    obtain ⟨y, hy, hyt⟩ := slot_of_dense hw ht
    rw [hxs, hyt]
    exact hparts x y (.slot hx hy)
  | @record f g hshape hf hparts =>
    right
    constructor
    · exact no_commitment_of_form hshape hf hparts
    · apply SameParts.record
      intro key
      cases hy : Fields.get? g key with
      | none =>
        have hnone : Fields.get? f key = none := by
          rw [Fields.get?_eq_none_iff, hshape, ← Fields.get?_eq_none_iff]
          exact hy
        rw [hnone]
        exact .none
      | some y =>
        obtain ⟨x, hx, hxy⟩ := aligned_field hshape hy
        rw [hx]
        exact .some (hparts x y hxy)

theorem same_parts_of_forms {S : FabricValue → FabricValue → Prop}
    (hv : isDense v = true) (hw : isDense w = true) (h : SameParts R v w)
    (hstep : ∀ x y, Aligned v w x y → R x y → S x y) : SameParts S v w := by
  have hflip : SameParts (fun y x => S x y) w v := h.symm hv hw hstep
  exact hflip.symm hw hv fun _ _ _ h => h

theorem plain_of_same (hv : isDense v = true) (hw : isDense w = true)
    (hplain : containsCfcFieldCommitment v = false) (h : sameValue v w = true) :
    containsCfcFieldCommitment w = false := by
  induction hsize : sizeOf v using Nat.strongRecOn generalizing v w with
  | ind n ih =>
    subst hsize
    have hnone : fieldCommitment? w = none :=
      (fieldCommitment?_of_same hv hw h).symm.trans (plain_not_commitment hplain)
    have hparts := same_parts_of_forms (S := fun _ y => containsCfcFieldCommitment y = false) hv hw
      (sameParts_of_same h) fun x y hxy hsame =>
        ih _ hxy.sizeOf (hxy.dense hv) (hxy.symm.dense hw) (hxy.plain hplain) hsame rfl
    cases hparts with
    | leaf hleaf _ =>
      have hwleaf : isLeaf w = true := (isLeaf_of_same h).symm.trans hleaf
      cases w with
      | array _ => cases hwleaf
      | record _ => cases hwleaf
      | _ => rfl
    | @array s t hslots =>
      rw [← Bool.not_eq_true, containsCfcFieldCommitment, slotsContainCommitment_iff]
      rintro ⟨y, hy, hcontains⟩
      obtain ⟨i, hi⟩ := List.mem_iff_getElem?.1 hy
      obtain ⟨hlength, hget⟩ := List.forall₂_iff_get.1 hslots
      obtain ⟨ht, heq⟩ := List.getElem?_eq_some_iff.1 hi
      have hslot : t.get ⟨i, ht⟩ = some y := heq
      have hheld := hget i (hlength ▸ ht) ht
      rw [hslot, Option.getD_some, hcontains] at hheld
      cases hheld
    | @record f g hkeys =>
      rw [plain_iff]
      refine ⟨hnone, fun field hfield => ?_⟩
      have hrel := hkeys field.1
      rw [get?_of_mem (isDense_record.1 hw).1 hfield] at hrel
      cases hx : Fields.get? f field.1 with
      | none => rw [hx] at hrel; cases hrel
      | some x => rw [hx, Option.rel_some_some] at hrel; exact hrel

/-- A committed form without commitments is the value itself. -/
theorem same_of_plain_form (hv : isDense v = true)
    (hplain : containsCfcFieldCommitment v = false) (h : CommittedForm hashStringOf v w)
    (hw : containsCfcFieldCommitment w = false) : sameValue v w = true := by
  induction hsize : sizeOf v using Nat.strongRecOn generalizing v w with
  | ind n ih =>
    subst hsize
    have hdense := isDense_form h hv
    rcases form_cases hv hplain h with rfl | ⟨_, hparts⟩
    · have hnone := plain_not_commitment hw
      rw [commitCfcFieldValue, fieldCommitment?_fieldCommitment] at hnone
      cases hnone
    · exact same_of_sameParts hv hdense (same_parts_of_forms hv hdense hparts fun x y hxy hform =>
        ih _ hxy.sizeOf (hxy.dense hv) (hxy.plain hplain) hform (hxy.symm.plain hw) rfl)

/-- Committed forms are equal only when they are forms of the same plaintext. -/
theorem same_of_committed {v' w' : FabricValue} (hv : isDense v = true) (hw : isDense w = true)
    (hvplain : containsCfcFieldCommitment v = false)
    (hwplain : containsCfcFieldCommitment w = false) (hv' : CommittedForm hashStringOf v v')
    (hw' : CommittedForm hashStringOf w w')
    (hdigests : DigestsDiffer hashStringOf (parts v ++ parts v' ++ (parts w ++ parts w')))
    (h : commitmentAwareEquals hashStringOf v' w' = true) : sameValue v w = true := by
  induction hsize : sizeOf v using Nat.strongRecOn generalizing v w v' w' with
  | ind n ih =>
    subst hsize
    have hdv := isDense_form hv' hv
    have hdw := isDense_form hw' hw
    have haware := (aware_iff hdv hdw).1 h
    rcases form_cases hv hvplain hv' with rfl | ⟨hnv, hvparts⟩
    · rw [commitCfcFieldValue, fieldCommitment?_fieldCommitment] at haware
      rcases form_cases hw hwplain hw' with rfl | ⟨hnw, _⟩
      · rw [commitCfcFieldValue, fieldCommitment?_fieldCommitment] at haware
        exact hdigests v (by simp [self_mem_parts]) w (by simp [self_mem_parts]) haware
      · rw [hnw] at haware
        have hsame := hdigests v (by simp [self_mem_parts]) w' (by simp [self_mem_parts])
          (Eq.symm haware)
        have hplain := plain_of_same hv hdw hvplain hsame
        exact sameValue_trans hsame (sameValue_symm (same_of_plain_form hw hwplain hw' hplain))
    · rw [hnv] at haware
      rcases form_cases hw hwplain hw' with rfl | ⟨hnw, hwparts⟩
      · rw [commitCfcFieldValue, fieldCommitment?_fieldCommitment] at haware
        have hsame := hdigests w (by simp [self_mem_parts]) v' (by simp [self_mem_parts])
          (Eq.symm haware)
        have hplain := plain_of_same hw hdv hwplain hsame
        exact sameValue_trans (same_of_plain_form hv hvplain hv' hplain) (sameValue_symm hsame)
      · rw [hnw] at haware
        -- Two values of one shape each: the forms are equal part by part.
        have hacross := hvparts.trans (T := fun x y' => ∃ x', Aligned v v' x x' ∧
            Aligned v' w' x' y' ∧ CommittedForm hashStringOf x x' ∧
            commitmentAwareEquals hashStringOf x' y' = true) hv hdv hdw haware
          fun x x' y' hx hy _ hform heq => ⟨x', hx, hy, hform, heq⟩
        have hback : SameParts (fun y' y => Aligned w w' y y' ∧ CommittedForm hashStringOf y y') w' w :=
          hwparts.symm hw hdw fun y y' hy hform => ⟨hy, hform⟩
        refine same_of_sameParts hv hw (hacross.trans hv hdw hw hback ?_)
        rintro x y' y _ _ hxy ⟨x', hxx, hxy', hform, heq⟩ ⟨hyy, hform'⟩
        refine ih _ hxx.sizeOf (hxx.dense hv) (hyy.dense hw) (hxx.plain hvplain)
          (hyy.plain hwplain) hform hform' (hdigests.mono fun u hu => ?_) heq rfl
        simp only [List.mem_append] at hu ⊢
        rcases hu with (hu | hu) | hu | hu
        · exact .inl (.inl (hxx.parts hu))
        · exact .inl (.inr (hxx.symm.parts hu))
        · exact .inr (.inl (hyy.parts hu))
        · exact .inr (.inr (hyy.symm.parts hu))

/-- The owner of a personal space is a DID. -/
def OwnedByDID (atom : FabricValue) : Prop :=
  ∀ fields owner, atom = .record fields → fields.length = 2 →
    Fields.get? fields "type" = some (.string PERSONAL_SPACE_TYPE) →
    Fields.get? fields "owner" = some owner → isCompleteDID owner = true

theorem plain_userAtom {subject : FabricValue} (h : containsCfcFieldCommitment subject = false) :
    containsCfcFieldCommitment (userAtom subject) = false := by
  rw [userAtom, plain_iff]
  refine ⟨fieldCommitment?_userAtom subject, ?_⟩
  simp [h, containsCfcFieldCommitment]

theorem form_userAtom (h : CommittedForm hashStringOf v w) :
    CommittedForm hashStringOf (userAtom v) (userAtom w) := by
  refine .record rfl (fieldCommitment?_userAtom v) fun x y hxy => ?_
  cases hxy with
  | field hx hy =>
    rw [get?_userAtom] at hx hy
    split at hx
    · rw [if_pos ‹_›] at hy
      rw [← Option.some.inj hx, ← Option.some.inj hy]
      exact h
    · rw [if_neg ‹_›] at hy
      rw [hx] at hy
      rw [Option.some.inj hy]
      exact .same y

/-- The reader that a committed personal space names is a form of the one it names in plain. -/
theorem reader_of_form {z z' reader' : FabricValue} (hz : OwnedByDID z)
    (hform : CommittedForm hashStringOf z z')
    (h : personalSpaceOwnerAsReader? z' = some reader') :
    ∃ reader, personalSpaceOwnerAsReader? z = some reader ∧
      containsCfcFieldCommitment reader = false ∧ CommittedForm hashStringOf reader reader' := by
  obtain ⟨g, owner', rfl, hlength, htype, howner, _, rfl⟩ := personalSpaceOwnerAsReader?_eq_some.1 h
  have hread : ∀ f owner, z = .record f → f.length = 2 →
      Fields.get? f "type" = some (.string PERSONAL_SPACE_TYPE) →
      Fields.get? f "owner" = some owner → CommittedForm hashStringOf owner owner' →
      ∃ reader, personalSpaceOwnerAsReader? z = some reader ∧
        containsCfcFieldCommitment reader = false ∧
        CommittedForm hashStringOf reader (userAtom owner') := by
    rintro f owner rfl hf hftype hfowner hcommitted
    have hdid := hz f owner rfl hf hftype hfowner
    refine ⟨userAtom owner, personalSpaceOwnerAsReader?_eq_some.2 ⟨f, owner, rfl, hf, hftype,
      hfowner, by rw [hdid]; rfl, rfl⟩, plain_userAtom ?_, form_userAtom hcommitted⟩
    cases owner with
    | string _ => rfl
    | _ => cases hdid
  cases hform with
  | same => exact hread g owner' rfl hlength htype howner (.same owner')
  | committed => cases hlength
  | @record f _ hshape _ hparts =>
    obtain ⟨type, hftype, htypes⟩ := aligned_field hshape htype
    obtain ⟨owner, hfowner, howners⟩ := aligned_field hshape howner
    have hf : f.length = 2 := by
      rw [← hlength]
      simpa using congrArg List.length hshape
    rw [eq_string_of_form (hparts _ _ htypes)] at hftype
    exact hread f owner rfl hf hftype hfowner (hparts _ _ howners)

/-- An alternative answers another in committed form only when it answers it in plain. -/
theorem answers_of_committed {x x' z z' : FabricValue} (hx : isDense x = true)
    (hz : isDense z = true) (hxplain : containsCfcFieldCommitment x = false)
    (hzplain : containsCfcFieldCommitment z = false) (hx' : CommittedForm hashStringOf x x')
    (hz' : CommittedForm hashStringOf z z') (howned : OwnedByDID z)
    (hdigests : ∀ r ∈ readings z, ∀ r' ∈ readings z',
      DigestsDiffer hashStringOf (parts x ++ parts x' ++ (parts r ++ parts r')))
    (h : answers hashStringOf x' z' = true) : answers hashStringOf x z = true := by
  rw [answers_iff] at h ⊢
  obtain ⟨r', hr', hentails⟩ := h
  have hdx := isDense_form hx' hx
  -- Each reading of the committed alternative is a form of one of the plain alternative.
  have hreading : ∃ r ∈ readings z, containsCfcFieldCommitment r = false ∧
      CommittedForm hashStringOf r r' := by
    cases mem_readings.1 hr' with
    | inl heq => exact ⟨z, mem_readings.2 (.inl rfl), hzplain, heq ▸ hz'⟩
    | inr hreader =>
      obtain ⟨reader, hread, hplain, hform⟩ := reader_of_form howned hz' hreader
      exact ⟨reader, mem_readings.2 (.inr hread), hplain, hform⟩
  obtain ⟨r, hr, hplain, hform⟩ := hreading
  have hdr := isDense_reading hz hr
  have hdr' := isDense_form hform hdr
  refine ⟨r, hr, ?_⟩
  rw [atomEntails_iff hdx hdr'] at hentails
  rw [atomEntails_iff hx hdr]
  rcases hentails with ⟨s, t, hs, ht, hle⟩ | ⟨_, haware⟩
  · have hsx := same_of_plain_form hx hxplain hx' (deadline_holds_no_commitment hs)
    have hsr := same_of_plain_form hdr hplain hform (deadline_holds_no_commitment ht)
    exact .inl ⟨s, t, (expiresTimestamp?_of_same hx hdx hsx).trans hs,
      (expiresTimestamp?_of_same hdr hdr' hsr).trans ht, hle⟩
  · have hsame := same_of_committed hx hdr hxplain hplain hx' hform (hdigests r hr r' hr') haware
    rw [← atomEntails_iff hx hdr]
    unfold atomEntails
    rw [if_pos hsame]

variable (hashStringOf) in
/-- The alternatives of the second clause are committed forms of the first's. -/
def CommittedClause (clause committed : FabricValue) : Prop :=
  List.Forall₂ (Option.Rel (CommittedForm hashStringOf)) (clauseAlternatives clause)
    (clauseAlternatives committed)

/-- No alternative holds a commitment. -/
def PlainClause (clause : FabricValue) : Prop :=
  ∀ x ∈ visitedAlternatives clause, containsCfcFieldCommitment x = false

theorem exists_of_forall₂ {R : FabricValue → FabricValue → Prop}
    {xs ys : List (Option FabricValue)} (h : List.Forall₂ (Option.Rel R) xs ys) {x : FabricValue}
    (hx : some x ∈ xs) : ∃ y, some y ∈ ys ∧ R x y := by
  induction h with
  | nil => cases hx
  | cons hxy _ ih =>
    cases hx with
    | head => cases hxy with | some hR => exact ⟨_, List.mem_cons_self, hR⟩
    | tail _ hx =>
      obtain ⟨y, hy, hR⟩ := ih hx
      exact ⟨y, List.mem_cons_of_mem _ hy, hR⟩

theorem CommittedClause.left {a a' x : FabricValue} (h : CommittedClause hashStringOf a a')
    (hx : x ∈ visitedAlternatives a) :
    ∃ x' ∈ visitedAlternatives a', CommittedForm hashStringOf x x' := by
  simp only [mem_visitedAlternatives] at hx ⊢
  exact exists_of_forall₂ h hx

theorem CommittedClause.right {a a' x' : FabricValue} (h : CommittedClause hashStringOf a a')
    (hx' : x' ∈ visitedAlternatives a') :
    ∃ x ∈ visitedAlternatives a, CommittedForm hashStringOf x x' := by
  simp only [mem_visitedAlternatives] at hx' ⊢
  have hback : List.Forall₂ (Option.Rel fun y x => CommittedForm hashStringOf x y)
      (clauseAlternatives a') (clauseAlternatives a) := by
    refine List.Forall₂.flip (h.imp fun slot slot' hslot => ?_)
    cases hslot with
    | some hform => exact .some hform
    | none => exact .none
  exact exists_of_forall₂ hback hx'

theorem clauseSubsumes_of_committed {a a' c c' : FabricValue} (ha : DenseClause a)
    (hc : DenseClause c) (haplain : PlainClause a) (hcplain : PlainClause c)
    (haa : CommittedClause hashStringOf a a') (hcc : CommittedClause hashStringOf c c')
    (howned : ∀ z ∈ visitedAlternatives c, OwnedByDID z)
    (hdigests : DigestsDiffer hashStringOf
      (clauseParts a ++ clauseParts a' ++ (clauseParts c ++ clauseParts c')))
    (h : clauseSubsumes hashStringOf a' c' = true) : clauseSubsumes hashStringOf a c = true := by
  rw [clauseSubsumes_iff] at h ⊢
  constructor
  · intro hnil
    rw [CommittedClause, hnil, List.forall₂_nil_left_iff] at haa
    exact h.1 haa
  · intro x hx
    obtain ⟨x', hx', hform⟩ := haa.left hx
    obtain ⟨z', hz', hanswers⟩ := h.2 x' hx'
    obtain ⟨z, hz, hform'⟩ := hcc.right hz'
    refine ⟨z, hz, answers_of_committed (ha x hx) (hc z hz) (haplain x hx) (hcplain z hz) hform
      hform' (howned z hz) (fun r hr r' hr' => hdigests.mono fun u hu => ?_) hanswers⟩
    have hself : ∀ v, v ∈ readings v := fun v => mem_readings.2 (.inl rfl)
    simp only [List.mem_append] at hu ⊢
    rcases hu with (hu | hu) | hu | hu
    · exact .inl (.inl (List.mem_flatMap.2 ⟨x, mem_clauseReadings hx (hself x), hu⟩))
    · exact .inl (.inr (List.mem_flatMap.2 ⟨x', mem_clauseReadings hx' (hself x'), hu⟩))
    · exact .inr (.inl (List.mem_flatMap.2 ⟨r, mem_clauseReadings hz hr, hu⟩))
    · exact .inr (.inr (List.mem_flatMap.2 ⟨r', mem_clauseReadings hz' hr', hu⟩))

end
end Cfc
