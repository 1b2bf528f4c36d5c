import CommonFabric.CommitmentEquality

/-!
# Subsumption of clauses

A clause subsumes another when each of its alternatives is answered by one of the other's. It is
a preorder, as long as no commitment hides what an alternative is read as, and commitments are
compared with each other at one depth.
-/

namespace Cfc

/-- A label's alternative, and the owner it names. -/
def readings (labelAtom : FabricValue) : List FabricValue :=
  labelAtom :: (personalSpaceOwnerAsReader? labelAtom).toList

/-- A deadline that is ordered, or a personal space whose owner is read. -/
def isRead (atom : FabricValue) : Bool :=
  (expiresTimestamp? atom).isSome || (personalSpaceOwnerAsReader? atom).isSome

/-- `User(subject)`, with its members in key order. -/
def userAtom (subject : FabricValue) : FabricValue :=
  .record [("subject", subject), ("type", .string USER_TYPE)]

theorem userAtom_injective : Function.Injective userAtom := by
  intro a b h
  have hfields := FabricValue.record.inj h
  exact congrArg Prod.snd (List.cons.inj hfields).1

theorem fieldCommitment?_of_length {fields : Members} (h : fields.length = 2) :
    fieldCommitment? (.record fields) = none := by
  rw [Option.eq_none_iff_forall_ne_some]
  intro digest hdigest
  rw [FabricValue.record.inj (fieldCommitment?_eq_some.1 hdigest)] at h
  cases h

@[simp] theorem fieldCommitment?_userAtom (subject : FabricValue) :
    fieldCommitment? (userAtom subject) = none := fieldCommitment?_of_length rfl

theorem get?_userAtom (subject : FabricValue) (key : JsString) :
    Fields.get? ([("subject", subject), ("type", .string USER_TYPE)] : Members) key =
      if ("subject" : JsString) = key then some subject
      else if ("type" : JsString) = key then some (.string USER_TYPE) else none := by
  rw [Fields.get?_cons, Fields.get?_cons, Fields.get?_nil]

theorem isDense_userAtom {subject : FabricValue} (h : isDense subject = true) :
    isDense (userAtom subject) = true := by
  rw [userAtom, isDense_record]
  constructor
  · simp only [List.map_cons, List.map_nil, List.nodup_cons, List.mem_singleton,
      List.not_mem_nil, not_false_eq_true, List.nodup_nil, and_true]
    decide
  · simp [h, isDense]

theorem personalSpaceOwnerAsReader?_eq_some {z reader : FabricValue} :
    personalSpaceOwnerAsReader? z = some reader ↔
      ∃ fields owner, z = .record fields ∧ fields.length = 2 ∧
        Fields.get? fields "type" = some (.string PERSONAL_SPACE_TYPE) ∧
        Fields.get? fields "owner" = some owner ∧
        (isCompleteDID owner || isCfcFieldCommitment owner) = true ∧
        reader = userAtom owner := by
  constructor
  · intro h
    cases z with
    | record fields =>
      unfold personalSpaceOwnerAsReader? at h
      dsimp only at h
      split at h
      · rename_i type owner htype howner
        split at h
        · rename_i hshape
          exact ⟨fields, owner, rfl, hshape.1, hshape.2.1 ▸ htype, howner, hshape.2.2,
            (Option.some.inj h).symm⟩
        · cases h
      · cases h
    | _ => cases h
  · rintro ⟨fields, owner, rfl, hlength, htype, howner, hread, rfl⟩
    unfold personalSpaceOwnerAsReader?
    dsimp only
    rw [htype, howner]
    exact if_pos ⟨hlength, rfl, hread⟩

theorem deadline_fields {a : FabricValue} {t : ℚ} (h : expiresTimestamp? a = some t) :
    ∃ fields n, a = .record fields ∧ fields.length = 2 ∧
      Fields.get? fields "timestamp" = some (.number n) ∧ Fields.get? fields "owner" = none := by
  obtain ⟨n, _, rfl | rfl⟩ := expiresTimestamp?_shape h
  · exact ⟨_, n, rfl, rfl, rfl, rfl⟩
  · exact ⟨_, n, rfl, rfl, rfl, rfl⟩

theorem personalSpace_holds_no_timestamp {fields : Members} {type owner : FabricValue}
    (hlength : fields.length = 2) (htype : Fields.get? fields "type" = some type)
    (howner : Fields.get? fields "owner" = some owner) :
    Fields.get? fields "timestamp" = none := by
  cases two_fields (by decide) hlength htype howner with
  | inl h => rw [h]; rfl
  | inr h => rw [h]; rfl

@[simp] theorem personalSpaceOwnerAsReader?_userAtom (subject : FabricValue) :
    personalSpaceOwnerAsReader? (userAtom subject) = none := by
  rw [Option.eq_none_iff_forall_ne_some]
  intro reader h
  obtain ⟨fields, owner, heq, -, -, howner, -⟩ := personalSpaceOwnerAsReader?_eq_some.1 h
  rw [← FabricValue.record.inj heq, get?_userAtom, if_neg (by decide), if_neg (by decide)] at howner
  cases howner

@[simp] theorem expiresTimestamp?_userAtom (subject : FabricValue) :
    expiresTimestamp? (userAtom subject) = none := by
  rw [Option.eq_none_iff_forall_ne_some]
  intro t h
  obtain ⟨fields, n, heq, -, htimestamp, -⟩ := deadline_fields h
  rw [← FabricValue.record.inj heq, get?_userAtom, if_neg (by decide), if_neg (by decide)]
    at htimestamp
  cases htimestamp

/-- What is the same is read alike. -/
theorem expiresTimestamp?_of_same {a b : FabricValue} (ha : isDense a = true)
    (hb : isDense b = true) (h : sameValue a b = true) :
    expiresTimestamp? a = expiresTimestamp? b := by
  have hdistinct : ∀ v, isDense v = true → KeysDistinct v := by
    intro v hv
    cases v with
    | record fields => exact (isDense_record.1 hv).1
    | _ => trivial
  cases hs : expiresTimestamp? a with
  | some s =>
    obtain ⟨n, hn, hsorted⟩ := keySorted_deadline hs
    rw [expiresTimestamp?_of_keySorted (hdistinct b hb) ((sameValue_iff.1 h).symm.trans hsorted), hn]
  | none =>
    cases ht : expiresTimestamp? b with
    | none => rfl
    | some t =>
      obtain ⟨n, hn, hsorted⟩ := keySorted_deadline ht
      rw [expiresTimestamp?_of_keySorted (hdistinct a ha) ((sameValue_iff.1 h).trans hsorted), hn]
        at hs
      cases hs

section

variable {hashStringOf : FabricValue → JsString}

variable {x y a b z : FabricValue}

theorem answers_iff :
    answers hashStringOf x y = true ↔
      ∃ r ∈ readings y, atomEntails hashStringOf x r = true := by
  unfold answers readings
  cases personalSpaceOwnerAsReader? y <;> simp

/-- Entailment is the order of deadlines, and equality across commitments. -/
theorem atomEntails_iff (ha : isDense a = true) (hb : isDense b = true) :
    atomEntails hashStringOf a b = true ↔
      (∃ s t, expiresTimestamp? a = some s ∧ expiresTimestamp? b = some t ∧ s ≤ t) ∨
        ((expiresTimestamp? a = none ∨ expiresTimestamp? b = none) ∧
          commitmentAwareEquals hashStringOf a b = true) := by
  unfold atomEntails
  cases hsame : sameValue a b with
  | true =>
    rw [if_pos rfl]
    simp only [true_iff]
    have htimes := expiresTimestamp?_of_same ha hb hsame
    cases hs : expiresTimestamp? a with
    | none => exact .inr ⟨.inl rfl, aware_of_same hsame⟩
    | some s => exact .inl ⟨s, s, rfl, htimes.symm.trans hs, le_refl s⟩
  | false =>
    rw [if_neg (by decide)]
    have hplain : commitmentAwareEquals hashStringOf a b = true →
        (containsCfcFieldCommitment a || containsCfcFieldCommitment b) = true := by
      intro haware
      cases hca : containsCfcFieldCommitment a with
      | true => rfl
      | false =>
        cases hcb : containsCfcFieldCommitment b with
        | true => rfl
        | false => rw [same_of_aware ha hb hca hcb haware] at hsame; cases hsame
    cases hs : expiresTimestamp? a with
    | none =>
      rw [Bool.and_eq_true]
      constructor
      · intro h
        exact .inr ⟨.inl rfl, h.2⟩
      · rintro (⟨_, _, h, _⟩ | ⟨_, h⟩)
        · cases h
        · exact ⟨hplain h, h⟩
    | some s =>
      cases ht : expiresTimestamp? b with
      | none =>
        rw [Bool.and_eq_true]
        constructor
        · intro h
          exact .inr ⟨.inr rfl, h.2⟩
        · rintro (⟨_, _, _, h, _⟩ | ⟨_, h⟩)
          · cases h
          · exact ⟨hplain h, h⟩
      | some t => simp

theorem aware_members {f g : Members} (hf : isDense (.record f) = true)
    (hg : isDense (.record g) = true) (hnf : fieldCommitment? (.record f) = none)
    (hng : fieldCommitment? (.record g) = none)
    (h : commitmentAwareEquals hashStringOf (.record f) (.record g) = true) (key : JsString) :
    Option.Rel (fun a b => commitmentAwareEquals hashStringOf a b = true) (Fields.get? f key)
      (Fields.get? g key) := by
  rw [aware_iff hf hg, hnf, hng] at h
  cases h with
  | leaf hleaf _ => cases hleaf
  | record hkeys => exact hkeys key

theorem userAtom_aware (ha : isDense a = true) (hb : isDense b = true)
    (h : commitmentAwareEquals hashStringOf a b = true) :
    commitmentAwareEquals hashStringOf (userAtom a) (userAtom b) = true := by
  rw [aware_iff (isDense_userAtom ha) (isDense_userAtom hb), fieldCommitment?_userAtom,
    fieldCommitment?_userAtom]
  apply SameParts.record
  intro key
  rw [get?_userAtom, get?_userAtom]
  split
  · exact .some h
  · split
    · exact .some (aware_of_same (sameValue_refl _))
    · exact .none

/-- Nothing that is read in a way of its own is a user. -/
theorem not_aware_userAtom {subject : FabricValue} (hy : isDense y = true)
    (hsubject : isDense subject = true) (hread : isRead y = true) :
    commitmentAwareEquals hashStringOf y (userAtom subject) = false := by
  rw [← Bool.not_eq_true]
  intro h
  rw [isRead, Bool.or_eq_true, Option.isSome_iff_exists, Option.isSome_iff_exists] at hread
  cases hread with
  | inl hread =>
    obtain ⟨t, ht⟩ := hread
    obtain ⟨fields, n, rfl, hlength, htimestamp, _⟩ := deadline_fields ht
    have hrel := aware_members hy (isDense_userAtom hsubject) (fieldCommitment?_of_length hlength)
      (fieldCommitment?_userAtom subject) h "timestamp"
    rw [htimestamp, get?_userAtom, if_neg (by decide), if_neg (by decide)] at hrel
    cases hrel
  | inr hread =>
    obtain ⟨reader, hreader⟩ := hread
    obtain ⟨fields, owner, rfl, hlength, _, howner, _⟩ :=
      personalSpaceOwnerAsReader?_eq_some.1 hreader
    have hrel := aware_members hy (isDense_userAtom hsubject) (fieldCommitment?_of_length hlength)
      (fieldCommitment?_userAtom subject) h "owner"
    rw [howner, get?_userAtom, if_neg (by decide), if_neg (by decide)] at hrel
    cases hrel

/-- What is read, and equals a deadline, is that deadline. -/
theorem deadline_of_aware {t : ℚ} (hx : isDense x = true)
    (hy : isDense y = true) (ht : expiresTimestamp? y = some t) (hread : isRead x = true)
    (h : commitmentAwareEquals hashStringOf x y = true) : expiresTimestamp? x = some t := by
  cases hs : expiresTimestamp? x with
  | some s =>
    have hsame := same_of_aware hx hy (deadline_holds_no_commitment hs)
      (deadline_holds_no_commitment ht) h
    rw [← hs, expiresTimestamp?_of_same hx hy hsame, ht]
  | none =>
    rw [isRead, hs, Option.isSome_none, Bool.false_or, Option.isSome_iff_exists] at hread
    obtain ⟨reader, hreader⟩ := hread
    obtain ⟨f, owner, rfl, hlength, _, howner, _⟩ := personalSpaceOwnerAsReader?_eq_some.1 hreader
    obtain ⟨g, n, rfl, hlength', _, hnone⟩ := deadline_fields ht
    have hrel := aware_members hx hy (fieldCommitment?_of_length hlength)
      (fieldCommitment?_of_length hlength') h "owner"
    rw [howner, hnone] at hrel
    cases hrel

/-- What is read, and equals a personal space, is one with an equal owner. -/
theorem reader_of_aware {reader : FabricValue} (hy : isDense y = true) (hz : isDense z = true)
    (hreader : personalSpaceOwnerAsReader? y = some reader) (hread : isRead z = true)
    (h : commitmentAwareEquals hashStringOf y z = true) :
    ∃ reader', personalSpaceOwnerAsReader? z = some reader' ∧
      commitmentAwareEquals hashStringOf reader reader' = true := by
  obtain ⟨f, owner, rfl, hlength, htype, howner, _, rfl⟩ :=
    personalSpaceOwnerAsReader?_eq_some.1 hreader
  cases ht : expiresTimestamp? z with
  | some t =>
    obtain ⟨g, n, rfl, hlength', htimestamp, _⟩ := deadline_fields ht
    have hrel := aware_members hy hz (fieldCommitment?_of_length hlength)
      (fieldCommitment?_of_length hlength') h "timestamp"
    rw [personalSpace_holds_no_timestamp hlength htype howner, htimestamp] at hrel
    cases hrel
  | none =>
    rw [isRead, ht, Option.isSome_none, Bool.false_or, Option.isSome_iff_exists] at hread
    obtain ⟨reader', hreader'⟩ := hread
    refine ⟨reader', hreader', ?_⟩
    obtain ⟨g, owner', rfl, hlength', _, howner', _, rfl⟩ :=
      personalSpaceOwnerAsReader?_eq_some.1 hreader'
    have hrel := aware_members hy hz (fieldCommitment?_of_length hlength)
      (fieldCommitment?_of_length hlength') h "owner"
    rw [howner, howner', Option.rel_some_some] at hrel
    exact userAtom_aware (isDense_member hy howner) (isDense_member hz howner') hrel

variable (hashStringOf) in
/-- The atom equals a deadline or a personal space under a commitment, and is read as neither. -/
def Disguised (atom : FabricValue) : Prop :=
  isRead atom = false ∧
    ∃ y, isDense y = true ∧ isRead y = true ∧ commitmentAwareEquals hashStringOf y atom = true

theorem isRead_of_aware (hz : ¬Disguised hashStringOf z)
    (hy : isDense y = true) (hread : isRead y = true)
    (h : commitmentAwareEquals hashStringOf y z = true) : isRead z = true := by
  rw [← Bool.not_eq_false]
  intro hnot
  exact hz ⟨hnot, y, hy, hread, h⟩

theorem not_disguised_userAtom {subject : FabricValue} (h : isDense subject = true) :
    ¬Disguised hashStringOf (userAtom subject) := by
  rintro ⟨_, y, hy, hread, haware⟩
  rw [not_aware_userAtom hy h hread] at haware
  cases haware

theorem isRead_of_deadline {t : ℚ} (h : expiresTimestamp? y = some t) :
    isRead y = true := by
  rw [isRead, h]
  rfl

theorem isRead_of_reader {reader : FabricValue} (h : personalSpaceOwnerAsReader? y = some reader) :
    isRead y = true := by
  rw [isRead, h, Option.isSome_some, Bool.or_true]

theorem entails_trans (hx : isDense x = true) (hy : isDense y = true)
    (hz : isDense z = true) (hlxy : Level x y) (hlyz : Level y z) (hlxz : Level x z)
    (hdigests : DigestsDiffer hashStringOf (parts x ++ parts y ++ parts z))
    (hnx : ¬Disguised hashStringOf x) (hnz : ¬Disguised hashStringOf z)
    (hxy : atomEntails hashStringOf x y = true) (hyz : atomEntails hashStringOf y z = true) :
    atomEntails hashStringOf x z = true := by
  rw [atomEntails_iff hx hy] at hxy
  rw [atomEntails_iff hy hz] at hyz
  rw [atomEntails_iff hx hz]
  cases ht : expiresTimestamp? y with
  | some t =>
    have hread := isRead_of_deadline ht
    -- Neither neighbour of a deadline hides one, so both are deadlines.
    have hfirst : ∃ s, expiresTimestamp? x = some s ∧ s ≤ t := by
      rw [ht] at hxy
      rcases hxy with ⟨s, t', hs, ht', hle⟩ | ⟨_, haware⟩
      · exact ⟨s, hs, Option.some.inj ht' ▸ hle⟩
      · have hreadx := isRead_of_aware hnx hy hread (aware_symm hx hy haware)
        exact ⟨t, deadline_of_aware hx hy ht hreadx haware, le_refl t⟩
    have hlast : ∃ u, expiresTimestamp? z = some u ∧ t ≤ u := by
      rw [ht] at hyz
      rcases hyz with ⟨t', u, ht', hu, hle⟩ | ⟨_, haware⟩
      · exact ⟨u, hu, Option.some.inj ht' ▸ hle⟩
      · have hreadz := isRead_of_aware hnz hy hread haware
        exact ⟨t, deadline_of_aware hz hy ht hreadz (aware_symm hy hz haware), le_refl t⟩
    obtain ⟨s, hs, hst⟩ := hfirst
    obtain ⟨u, hu, htu⟩ := hlast
    exact .inl ⟨s, u, hs, hu, hst.trans htu⟩
  | none =>
    rw [ht] at hxy hyz
    have hxy' : commitmentAwareEquals hashStringOf x y = true := by
      rcases hxy with ⟨_, _, _, h, _⟩ | ⟨_, h⟩
      · cases h
      · exact h
    have hyz' : commitmentAwareEquals hashStringOf y z = true := by
      rcases hyz with ⟨_, _, h, _⟩ | ⟨_, h⟩
      · cases h
      · exact h
    have hxz := aware_trans hx hy hz hlxy hlyz hlxz hdigests hxy' hyz'
    rw [← atomEntails_iff hx hz]
    cases hs : expiresTimestamp? x with
    | none => exact (atomEntails_iff hx hz).2 (.inr ⟨.inl hs, hxz⟩)
    | some s =>
      cases hu : expiresTimestamp? z with
      | none => exact (atomEntails_iff hx hz).2 (.inr ⟨.inr hu, hxz⟩)
      | some u =>
        have hsame := same_of_aware hx hz (deadline_holds_no_commitment hs)
          (deadline_holds_no_commitment hu) hxz
        unfold atomEntails
        rw [if_pos hsame]

theorem mem_readings {r : FabricValue} :
    r ∈ readings z ↔ r = z ∨ personalSpaceOwnerAsReader? z = some r := by
  simp [readings]

theorem isDense_reading {r : FabricValue} (hz : isDense z = true) (hr : r ∈ readings z) :
    isDense r = true := by
  cases mem_readings.1 hr with
  | inl heq => exact heq ▸ hz
  | inr hreader =>
    obtain ⟨fields, owner, rfl, _, _, howner, _, rfl⟩ :=
      personalSpaceOwnerAsReader?_eq_some.1 hreader
    exact isDense_userAtom (isDense_member hz howner)

theorem reader_eq_userAtom {r : FabricValue} (h : personalSpaceOwnerAsReader? z = some r) :
    ∃ owner, r = userAtom owner := by
  obtain ⟨_, owner, _, _, _, _, _, heq⟩ := personalSpaceOwnerAsReader?_eq_some.1 h
  exact ⟨owner, heq⟩

theorem aware_of_entails_userAtom {subject : FabricValue} (hx : isDense x = true)
    (hsubject : isDense (userAtom subject) = true)
    (h : atomEntails hashStringOf x (userAtom subject) = true) :
    commitmentAwareEquals hashStringOf x (userAtom subject) = true := by
  rw [atomEntails_iff hx hsubject, expiresTimestamp?_userAtom] at h
  rcases h with ⟨_, _, _, h, _⟩ | ⟨_, h⟩
  · cases h
  · exact h

theorem answers_trans (hx : isDense x = true) (hy : isDense y = true)
    (hz : isDense z = true) (hlxy : ∀ v ∈ readings y, Level x v)
    (hlyz : ∀ v ∈ readings y, ∀ w ∈ readings z, Level v w) (hlxz : ∀ w ∈ readings z, Level x w)
    (hdigests : ∀ v ∈ readings y, ∀ w ∈ readings z,
      DigestsDiffer hashStringOf (parts x ++ parts v ++ parts w))
    (hnx : ¬Disguised hashStringOf x) (hnz : ¬Disguised hashStringOf z)
    (hxy : answers hashStringOf x y = true) (hyz : answers hashStringOf y z = true) :
    answers hashStringOf x z = true := by
  rw [answers_iff] at hxy hyz ⊢
  obtain ⟨v, hv, hxv⟩ := hxy
  obtain ⟨w, hw, hyw⟩ := hyz
  have hself : y ∈ readings y := mem_readings.2 (.inl rfl)
  have hnw : ¬Disguised hashStringOf w := by
    cases mem_readings.1 hw with
    | inl heq => exact heq ▸ hnz
    | inr hreader =>
      obtain ⟨owner, rfl⟩ := reader_eq_userAtom hreader
      obtain ⟨fields, held, hrecord, _, _, howner, _, heq⟩ :=
        personalSpaceOwnerAsReader?_eq_some.1 hreader
      have hsame : owner = held := by
        exact userAtom_injective heq
      subst hrecord hsame
      exact not_disguised_userAtom (isDense_member hz howner)
  cases mem_readings.1 hv with
  | inl heq =>
    subst heq
    exact ⟨w, hw, entails_trans hx hy (isDense_reading hz hw) (hlxy v hself)
      (hlyz v hself w hw) (hlxz w hw) (hdigests v hself w hw) hnx hnw hxv hyw⟩
  | inr hreader =>
    -- `y` is a personal space, and what it equals is read as the same owner's.
    obtain ⟨owner, rfl⟩ := reader_eq_userAtom hreader
    have hdense := isDense_reading hy hv
    have haware := aware_of_entails_userAtom hx hdense hxv
    have hnone : expiresTimestamp? y = none := by
      cases ht : expiresTimestamp? y with
      | none => rfl
      | some t =>
        obtain ⟨f, n, rfl, _, htimestamp, _⟩ := deadline_fields ht
        obtain ⟨g, held, hrecord, hlength, htype, howner, _⟩ :=
          personalSpaceOwnerAsReader?_eq_some.1 hreader
        rw [← FabricValue.record.inj hrecord] at hlength htype howner
        rw [personalSpace_holds_no_timestamp hlength htype howner] at htimestamp
        cases htimestamp
    have hyw' : commitmentAwareEquals hashStringOf y w = true := by
      rw [atomEntails_iff hy (isDense_reading hz hw), hnone] at hyw
      rcases hyw with ⟨_, _, h, _⟩ | ⟨_, h⟩
      · cases h
      · exact h
    have hread := isRead_of_aware hnw hy (isRead_of_reader hreader) hyw'
    cases mem_readings.1 hw with
    | inr hreader' =>
      obtain ⟨owner', rfl⟩ := reader_eq_userAtom hreader'
      rw [isRead, expiresTimestamp?_userAtom, personalSpaceOwnerAsReader?_userAtom] at hread
      cases hread
    | inl heq =>
      subst heq
      obtain ⟨reader', hreader', howners⟩ := reader_of_aware hy hz hreader hread hyw'
      have hw' : reader' ∈ readings w := mem_readings.2 (.inr hreader')
      refine ⟨reader', hw', ?_⟩
      obtain ⟨owner', rfl⟩ := reader_eq_userAtom hreader'
      have hxz := aware_trans hx hdense (isDense_reading hz hw') (hlxy _ hv) (hlyz _ hv _ hw')
        (hlxz _ hw') (hdigests _ hv _ hw') haware howners
      exact (atomEntails_iff hx (isDense_reading hz hw')).2
        (.inr ⟨.inr (expiresTimestamp?_userAtom owner'), hxz⟩)

/-- All that a clause's alternatives are read as. -/
def clauseReadings (clause : FabricValue) : List FabricValue :=
  (visitedAlternatives clause).flatMap readings

def clauseParts (clause : FabricValue) : List FabricValue :=
  (clauseReadings clause).flatMap parts

/-- No alternative holds an array with a hole. -/
def DenseClause (clause : FabricValue) : Prop :=
  ∀ x ∈ visitedAlternatives clause, isDense x = true

/-- Neither clause holds a commitment where the other holds one further in. -/
def LevelClauses (a b : FabricValue) : Prop :=
  ∀ u ∈ clauseReadings a, ∀ v ∈ clauseReadings b, Level u v

theorem mem_clauseReadings {clause r : FabricValue} (hx : x ∈ visitedAlternatives clause)
    (hr : r ∈ readings x) : r ∈ clauseReadings clause := List.mem_flatMap.2 ⟨x, hx, hr⟩

theorem clauseSubsumes_refl (h : clauseAlternatives a ≠ []) :
    clauseSubsumes hashStringOf a a = true := by
  rw [clauseSubsumes_iff]
  refine ⟨h, fun x hx => ⟨x, hx, ?_⟩⟩
  rw [answers_iff]
  refine ⟨x, mem_readings.2 (.inl rfl), ?_⟩
  unfold atomEntails
  rw [if_pos (sameValue_refl x)]

theorem clauseSubsumes_trans {c : FabricValue} (ha : DenseClause a) (hb : DenseClause b)
    (hc : DenseClause c) (hlab : LevelClauses a b) (hlbc : LevelClauses b c)
    (hlac : LevelClauses a c)
    (hdigests : DigestsDiffer hashStringOf (clauseParts a ++ clauseParts b ++ clauseParts c))
    (hna : ∀ x ∈ visitedAlternatives a, ¬Disguised hashStringOf x)
    (hnc : ∀ z ∈ visitedAlternatives c, ¬Disguised hashStringOf z)
    (hab : clauseSubsumes hashStringOf a b = true)
    (hbc : clauseSubsumes hashStringOf b c = true) : clauseSubsumes hashStringOf a c = true := by
  rw [clauseSubsumes_iff] at hab hbc ⊢
  refine ⟨hab.1, fun x hx => ?_⟩
  obtain ⟨y, hy, hxy⟩ := hab.2 x hx
  obtain ⟨z, hz, hyz⟩ := hbc.2 y hy
  have hself : x ∈ clauseReadings a := mem_clauseReadings hx (mem_readings.2 (.inl rfl))
  refine ⟨z, hz, answers_trans (ha x hx) (hb y hy) (hc z hz)
    (fun v hv => hlab x hself v (mem_clauseReadings hy hv))
    (fun v hv w hw => hlbc v (mem_clauseReadings hy hv) w (mem_clauseReadings hz hw))
    (fun w hw => hlac x hself w (mem_clauseReadings hz hw))
    (fun v hv w hw => hdigests.mono fun u hu => ?_) (hna x hx) (hnc z hz) hxy hyz⟩
  simp only [List.mem_append] at hu ⊢
  rcases hu with (hu | hu) | hu
  · exact .inl (.inl (List.mem_flatMap.2 ⟨x, hself, hu⟩))
  · exact .inl (.inr (List.mem_flatMap.2 ⟨v, mem_clauseReadings hy hv, hu⟩))
  · exact .inr (List.mem_flatMap.2 ⟨w, mem_clauseReadings hz hw, hu⟩)

/-- A clause of no alternatives subsumes nothing, and no clause without holes subsumes it. -/
theorem clauseSubsumes_empty (ha : NoHoles a)
    (h : clauseAlternatives a = [] ∨ clauseAlternatives b = []) :
    clauseSubsumes hashStringOf a b = false := by
  rw [← Bool.not_eq_true, clauseSubsumes_iff]
  rintro ⟨hne, hall⟩
  cases h with
  | inl h => exact hne h
  | inr h =>
    obtain ⟨x, hx⟩ := List.exists_mem_of_ne_nil _ (ha.visited_ne_nil.2 hne)
    obtain ⟨y, hy, _⟩ := hall x hx
    rw [mem_visitedAlternatives, h] at hy
    cases hy

/-- The canonical form of a clause without holes has its alternatives. -/
theorem mem_alternatives_normalize {clause : FabricValue} (hclause : NoHoles clause) :
    x ∈ visitedAlternatives (normalizeClause hashStringOf clause) ↔
      x ∈ visitedAlternatives clause := by
  cases h : orAlternatives? clause with
  | none =>
    rw [normalizeClause, h]
  | some xs =>
    have hnormalized : normalizeClause hashStringOf clause =
        normalizeClause hashStringOf (orClause (listed (clauseAlternatives clause))) := by
      rw [normalizeClause_orClause, normalizeClause, clauseAlternatives, h, Option.getD_some]
    rw [hnormalized, mem_alternatives_normalizeClause, hclause.listed]

/-- A canonical form of a clause without holes is one. -/
theorem NoHoles.normalizeClause {clause : FabricValue} (h : NoHoles clause) :
    NoHoles (normalizeClause hashStringOf clause) := by
  cases hor : orAlternatives? clause with
  | none => rwa [Cfc.normalizeClause, hor]
  | some xs =>
    have hdense : ∀ ys : List FabricValue, NoHoles (orClause ys) := fun ys => by
      simp [NoHoles, clauseAlternatives]
    rw [Cfc.normalizeClause, hor]
    dsimp only
    split
    · rename_i x _
      cases hx : isOrClause x with
      | true => exact hdense _
      | false =>
        rw [isOrClause, Option.isSome_eq_false_iff, Option.isNone_iff_eq_none] at hx
        simp [NoHoles, clauseAlternatives, hx]
    · exact hdense _

theorem aware_of_same_left {a' : FabricValue} (ha : isDense a = true) (ha' : isDense a' = true)
    (hb : isDense b = true) (hsame : sameValue a a' = true)
    (h : commitmentAwareEquals hashStringOf a b = true) :
    commitmentAwareEquals hashStringOf a' b = true := by
  induction hsize : sizeOf a using Nat.strongRecOn generalizing a a' b with
  | ind n ih =>
    subst hsize
    have hmarkers := fieldCommitment?_of_same ha ha' hsame
    rw [aware_iff ha hb, hmarkers] at h
    rw [aware_iff ha' hb]
    cases hd : fieldCommitment? a' with
    | some digest =>
      rw [hd] at h
      cases he : fieldCommitment? b with
      | some digest' => rw [he] at h; exact h
      | none => rw [he] at h; exact h
    | none =>
      rw [hd] at h
      cases he : fieldCommitment? b with
      | some digest =>
        rw [he] at h
        show hashStringOf (keySorted a') = digest
        rw [← sameValue_iff.1 hsame]
        exact h
      | none =>
        rw [he] at h
        have hflip := sameParts_of_same (sameValue_symm hsame)
        refine hflip.trans ha' ha hb h fun x y z hxy hyz _ hsame' haware => ?_
        exact ih _ hyz.sizeOf (hyz.dense ha) (hxy.dense ha') (hyz.symm.dense hb)
          (sameValue_symm hsame') haware rfl

theorem entails_of_same {a' b' : FabricValue} (ha : isDense a = true) (ha' : isDense a' = true)
    (hb : isDense b = true) (hb' : isDense b' = true) (hsa : sameValue a a' = true)
    (hsb : sameValue b b' = true) (h : atomEntails hashStringOf a b = true) :
    atomEntails hashStringOf a' b' = true := by
  rw [atomEntails_iff ha hb, expiresTimestamp?_of_same ha ha' hsa,
    expiresTimestamp?_of_same hb hb' hsb] at h
  rw [atomEntails_iff ha' hb']
  refine h.imp_right fun ⟨hnone, haware⟩ => ⟨hnone, ?_⟩
  have hleft := aware_of_same_left ha ha' hb hsa haware
  exact aware_symm hb' ha' (aware_of_same_left hb hb' ha' hsb (aware_symm ha' hb hleft))

theorem length_of_same {f g : Members} (hf : isDense (.record f) = true)
    (hg : isDense (.record g) = true) (h : sameValue (.record f) (.record g) = true) :
    f.length = g.length := by
  rw [← length_keySortedFields (isDense_record.1 hf).1,
    ← length_keySortedFields (isDense_record.1 hg).1,
    FabricValue.record.inj (sameValue_iff.1 h)]

theorem eq_string_of_same {v : FabricValue} {s : JsString} (h : sameValue (.string s) v = true) :
    v = .string s :=
  eq_string_of_keySorted (sameValue_iff.1 (sameValue_symm h))

theorem reader_of_same {y' reader : FabricValue} (hy : isDense y = true) (hy' : isDense y' = true)
    (hsame : sameValue y y' = true) (h : personalSpaceOwnerAsReader? y = some reader) :
    ∃ reader', personalSpaceOwnerAsReader? y' = some reader' ∧
      sameValue reader reader' = true := by
  obtain ⟨f, owner, rfl, hlength, htype, howner, hread, rfl⟩ :=
    personalSpaceOwnerAsReader?_eq_some.1 h
  cases y' with
  | record g =>
    have hkeys := sameValue_record.1 hsame
    have htype' := hkeys "type"
    have howner' := hkeys "owner"
    rw [htype] at htype'
    rw [howner] at howner'
    cases htg : Fields.get? g "type" with
    | none => rw [htg] at htype'; cases htype'
    | some type =>
      cases hog : Fields.get? g "owner" with
      | none => rw [hog] at howner'; cases howner'
      | some owner' =>
        rw [htg, Option.rel_some_some] at htype'
        rw [hog, Option.rel_some_some] at howner'
        have hread' : (isCompleteDID owner' || isCfcFieldCommitment owner') = true := by
          rw [Bool.or_eq_true] at hread ⊢
          cases hread with
          | inl hdid =>
            cases owner with
            | string s => rw [eq_string_of_same howner']; exact .inl hdid
            | _ => cases hdid
          | inr hmarker =>
            right
            rw [isCfcFieldCommitment] at hmarker ⊢
            rw [← fieldCommitment?_of_same (isDense_member hy howner) (isDense_member hy' hog)
              howner']
            exact hmarker
        refine ⟨userAtom owner', personalSpaceOwnerAsReader?_eq_some.2 ⟨g, owner', rfl,
          (length_of_same hy hy' hsame).symm.trans hlength,
          htg.trans (congrArg some (eq_string_of_same htype')), hog, hread', rfl⟩, ?_⟩
        rw [userAtom, userAtom, sameValue_record]
        intro key
        rw [get?_userAtom, get?_userAtom]
        split
        · exact .some howner'
        · split
          · exact .some (sameValue_refl _)
          · exact .none
  | _ => simp [sameValue, keySorted] at hsame

theorem answers_of_same {x' y' : FabricValue} (hx : isDense x = true) (hx' : isDense x' = true)
    (hy : isDense y = true) (hy' : isDense y' = true) (hsx : sameValue x x' = true)
    (hsy : sameValue y y' = true) (h : answers hashStringOf x y = true) :
    answers hashStringOf x' y' = true := by
  rw [answers_iff] at h ⊢
  obtain ⟨r, hr, hxr⟩ := h
  cases mem_readings.1 hr with
  | inl heq =>
    subst heq
    exact ⟨y', mem_readings.2 (.inl rfl), entails_of_same hx hx' hy hy' hsx hsy hxr⟩
  | inr hreader =>
    obtain ⟨r', hreader', hsr⟩ := reader_of_same hy hy' hsy hreader
    have hr' : r' ∈ readings y' := mem_readings.2 (.inr hreader')
    exact ⟨r', hr', entails_of_same hx hx' (isDense_reading hy hr) (isDense_reading hy' hr') hsx hsr
      hxr⟩

/-- Each alternative of the one clause is the same as one of the other. -/
def SameAlternatives (a b : FabricValue) : Prop :=
  (∀ x ∈ visitedAlternatives a, ∃ y ∈ visitedAlternatives b, sameValue x y = true) ∧
    ∀ y ∈ visitedAlternatives b, ∃ x ∈ visitedAlternatives a, sameValue x y = true

theorem SameAlternatives.symm (h : SameAlternatives a b) :
    SameAlternatives b a := by
  constructor
  · intro y hy
    obtain ⟨x, hx, hsame⟩ := h.2 y hy
    exact ⟨x, hx, sameValue_symm hsame⟩
  · intro x hx
    obtain ⟨y, hy, hsame⟩ := h.1 x hx
    exact ⟨y, hy, sameValue_symm hsame⟩

theorem subsumes_of_sameAlternatives {a' b' : FabricValue}
    (hempty : clauseAlternatives a' = [] → clauseAlternatives a = []) (ha : DenseClause a)
    (ha' : DenseClause a') (hb : DenseClause b)
    (hb' : DenseClause b') (haa : SameAlternatives a a') (hbb : SameAlternatives b b')
    (h : clauseSubsumes hashStringOf a b = true) : clauseSubsumes hashStringOf a' b' = true := by
  rw [clauseSubsumes_iff] at h ⊢
  refine ⟨fun hnil => h.1 (hempty hnil), fun x' hx' => ?_⟩
  obtain ⟨x, hx, hsx⟩ := haa.2 x' hx'
  obtain ⟨y, hy, hxy⟩ := h.2 x hx
  obtain ⟨y', hy', hsy⟩ := hbb.1 y hy
  exact ⟨y', hy', answers_of_same (ha x hx) (ha' x' hx') (hb y hy) (hb' y' hy') hsx hsy hxy⟩

/-- Neither the order of alternatives, nor how often each stands, nor the order of their members
changes what a clause subsumes or is subsumed by. -/
theorem clauseSubsumes_sameAlternatives {a' b' : FabricValue}
    (hempty : clauseAlternatives a = [] ↔ clauseAlternatives a' = []) (ha : DenseClause a)
    (ha' : DenseClause a') (hb : DenseClause b) (hb' : DenseClause b')
    (haa : SameAlternatives a a') (hbb : SameAlternatives b b') :
    clauseSubsumes hashStringOf a b = clauseSubsumes hashStringOf a' b' := by
  rw [Bool.eq_iff_iff]
  constructor
  · exact subsumes_of_sameAlternatives hempty.2 ha ha' hb hb' haa hbb
  · exact subsumes_of_sameAlternatives hempty.1 ha' ha hb' hb haa.symm hbb.symm

/-- A clause without holes subsumes as its canonical form does. -/
theorem clauseSubsumes_normalize_left (ha : NoHoles a) :
    clauseSubsumes hashStringOf (normalizeClause hashStringOf a) b =
      clauseSubsumes hashStringOf a b := by
  have hcanonical : NoHoles (normalizeClause hashStringOf a) := ha.normalizeClause
  have hne : clauseAlternatives (normalizeClause hashStringOf a) ≠ [] ↔
      clauseAlternatives a ≠ [] := by
    rw [← ha.visited_ne_nil, ← hcanonical.visited_ne_nil]
    constructor
    · intro h
      obtain ⟨x, hx⟩ := List.exists_mem_of_ne_nil _ h
      exact List.ne_nil_of_mem ((mem_alternatives_normalize ha).1 hx)
    · intro h
      obtain ⟨x, hx⟩ := List.exists_mem_of_ne_nil _ h
      exact List.ne_nil_of_mem ((mem_alternatives_normalize ha).2 hx)
  rw [Bool.eq_iff_iff, clauseSubsumes_iff, clauseSubsumes_iff, hne]
  simp only [mem_alternatives_normalize ha]

/-- A clause without holes is subsumed as its canonical form is. -/
theorem clauseSubsumes_normalize_right (hb : NoHoles b) :
    clauseSubsumes hashStringOf a (normalizeClause hashStringOf b) =
      clauseSubsumes hashStringOf a b := by
  rw [Bool.eq_iff_iff, clauseSubsumes_iff, clauseSubsumes_iff]
  simp only [mem_alternatives_normalize hb]

end
end Cfc
