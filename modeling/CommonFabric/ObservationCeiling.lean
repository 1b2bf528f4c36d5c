import CommonFabric.AtomPattern

/-!
# Observation ceilings

A ceiling lists the clauses an observer answers for. A label fits it when each clause of the
label is subsumed by one of the ceiling's. The meet of two ceilings pairs their clauses, and
each pair asks for what both of its clauses ask for.
-/

namespace JsNumber

/-- The value of a number for which `Number.isFinite` holds. -/
def toRat? : JsNumber → Option ℚ
  | .finite q => some q
  | .negZero => some 0
  | _ => none

end JsNumber

namespace Cfc

/-- `CFC_ATOM_TYPE.Expires`. -/
def EXPIRES_TYPE : JsString := "https://commonfabric.org/cfc/atom/Expires"

/-- `CFC_ATOM_TYPE.PersonalSpace`. -/
def PERSONAL_SPACE_TYPE : JsString := "https://commonfabric.org/cfc/atom/PersonalSpace"

/-- `CFC_ATOM_TYPE.User`. -/
def USER_TYPE : JsString := "https://commonfabric.org/cfc/atom/User"

def CFC_LABEL_READ_FAILED_ATOM : FabricValue := .string "cfc:label-read-failed"

/-- Absent for no ceiling. -/
abbrev MaxConfidentiality := Option (List FabricValue)

/-- The timestamp of an `Expires` atom in its two-field shape, the one that is ordered. -/
def expiresTimestamp? : FabricValue → Option ℚ
  | .record fields =>
    if fields.length = 2 ∧ Fields.get? fields "type" = some (.string EXPIRES_TYPE) then
      match Fields.get? fields "timestamp" with
      | some (.number n) => n.toRat?
      | _ => none
    else none
  | _ => none

mutual
def containsCfcFieldCommitment : FabricValue → Bool
  | .array slots => slotsContainCommitment slots
  | .record fields => isCfcFieldCommitment (.record fields) || fieldsContainCommitment fields
  | _ => false

def slotsContainCommitment : List (Option FabricValue) → Bool
  | [] => false
  | none :: slots => slotsContainCommitment slots
  | some value :: slots => containsCfcFieldCommitment value || slotsContainCommitment slots

def fieldsContainCommitment : Members → Bool
  | [] => false
  | (_, value) :: fields => containsCfcFieldCommitment value || fieldsContainCommitment fields
end

/-- A DID naming both its method and its identifier, the text after the method's colon. -/
def isCompleteDID : FabricValue → Bool
  | .string s =>
    let rest := s.units.drop 4
    let method := rest.takeWhile (· ≠ 58)
    let id := (rest.dropWhile (· ≠ 58)).tail
    s.startsWith "did:" && !method.isEmpty && !id.isEmpty
  | _ => false

/-- The owner of a `PersonalSpace` atom as a reader of the space. -/
def personalSpaceOwnerAsReader? : FabricValue → Option FabricValue
  | .record fields =>
    match Fields.get? fields "type", Fields.get? fields "owner" with
    | some type, some owner =>
      if fields.length = 2 ∧ type = .string PERSONAL_SPACE_TYPE ∧
          (isCompleteDID owner || isCfcFieldCommitment owner) then
        some (.record [("subject", owner), ("type", .string USER_TYPE)])
      else none
    | _, _ => none
  | _ => none

section

variable (hashStringOf : FabricValue → JsString)

def atomEntails (a b : FabricValue) : Bool :=
  if sameValue a b then true
  else
    match expiresTimestamp? a, expiresTimestamp? b with
    | some s, some t => s ≤ t
    | _, _ => (containsCfcFieldCommitment a || containsCfcFieldCommitment b) &&
        commitmentAwareEquals hashStringOf a b

/-- A label's alternative answers the ceiling's, as it is written or as the owner it names. -/
def answers (ceilingAtom labelAtom : FabricValue) : Bool :=
  atomEntails hashStringOf ceilingAtom labelAtom ||
    (personalSpaceOwnerAsReader? labelAtom).any (atomEntails hashStringOf ceilingAtom)

def clauseSubsumes (ceilingClause labelClause : FabricValue) : Bool :=
  if clauseAlternatives ceilingClause = [] then false
  else (visitedAlternatives ceilingClause).all fun ceilingAtom =>
    (visitedAlternatives labelClause).any (answers hashStringOf ceilingAtom)

def clauseBearsReadFailedMarker (clause : FabricValue) : Bool :=
  (visitedAlternatives clause).any fun alternative =>
    sameValue alternative CFC_LABEL_READ_FAILED_ATOM ||
      commitmentAwareEquals hashStringOf alternative CFC_LABEL_READ_FAILED_ATOM

def atomsOutsideCeiling (confidentiality : List FabricValue) : MaxConfidentiality →
    List FabricValue
  | none => []
  | some ceiling => confidentiality.filter fun clause =>
      clauseBearsReadFailedMarker hashStringOf clause ||
        !ceiling.any (clauseSubsumes hashStringOf · clause)

def cfcObservationFitsCeiling (confidentiality : List FabricValue) : MaxConfidentiality → Bool
  | none => true
  | some ceiling =>
    if confidentiality.any (clauseBearsReadFailedMarker hashStringOf) then false
    else (atomsOutsideCeiling hashStringOf confidentiality (some ceiling)).isEmpty

/-- The unions of each clause of the one ceiling with each of the other. -/
def clauseUnions (a b : List FabricValue) : List FabricValue :=
  a.flatMap fun clauseA =>
    if clauseAlternatives clauseA = [] then []
    else b.flatMap fun clauseB =>
      if clauseAlternatives clauseB = [] then []
      else [normalizeClause hashStringOf
        (orClause (listed (clauseAlternatives clauseA) ++ listed (clauseAlternatives clauseB)))]

def meetCfcObservationCeilings : MaxConfidentiality → MaxConfidentiality → MaxConfidentiality
  | none, b => b
  | some a, none => some a
  | some a, some b => some (uniqueCfcAtoms (clauseUnions hashStringOf a b))

variable {hashStringOf}

theorem clauseSubsumes_iff {ceilingClause labelClause : FabricValue} :
    clauseSubsumes hashStringOf ceilingClause labelClause = true ↔
      clauseAlternatives ceilingClause ≠ [] ∧
        ∀ x ∈ visitedAlternatives ceilingClause, ∃ y ∈ visitedAlternatives labelClause,
          answers hashStringOf x y = true := by
  unfold clauseSubsumes
  by_cases hnil : clauseAlternatives ceilingClause = []
  · simp [hnil]
  · rw [if_neg hnil, List.all_eq_true]
    simp only [List.any_eq_true, ne_eq, hnil, not_false_eq_true, true_and]

variable {label : List FabricValue} {fields : Members} {v a : FabricValue}

theorem fits_iff {ceiling : List FabricValue} :
    cfcObservationFitsCeiling hashStringOf label (some ceiling) = true ↔
      ∀ clause ∈ label, clauseBearsReadFailedMarker hashStringOf clause = false ∧
        ∃ allowed ∈ ceiling, clauseSubsumes hashStringOf allowed clause = true := by
  unfold cfcObservationFitsCeiling
  cases hmarker : label.any (clauseBearsReadFailedMarker hashStringOf) with
  | true =>
    obtain ⟨clause, hclause, hbears⟩ := List.any_eq_true.1 hmarker
    constructor
    · intro h
      cases h
    · intro h
      have hclear := (h clause hclause).1
      rw [hbears] at hclear
      cases hclear
  | false =>
    have hclear : ∀ clause ∈ label, clauseBearsReadFailedMarker hashStringOf clause = false := by
      simpa using hmarker
    simp only [atomsOutsideCeiling, Bool.false_eq_true, if_false, List.isEmpty_iff,
      List.filter_eq_nil_iff, Bool.or_eq_true, Bool.not_eq_true', not_or, Bool.not_eq_true,
      Bool.not_eq_false, List.any_eq_true]

/-- A canonical clause has the alternatives it was made of. -/
theorem mem_alternatives_normalizeClause {x : FabricValue} {xs : List FabricValue} :
    x ∈ visitedAlternatives (normalizeClause hashStringOf (orClause xs)) ↔ x ∈ xs := by
  rw [visitedAlternatives_normalizeClause, (sortByCanonicalHash_perm hashStringOf _).mem_iff,
    mem_uniqueCfcAtoms]

variable {clauseA clauseB clause : FabricValue}

/-- The union of two clauses without holes subsumes what both of them subsume. -/
theorem clauseSubsumes_union (hA : NoHoles clauseA) (hB : NoHoles clauseB)
    (ha : clauseAlternatives clauseA ≠ []) (hb : clauseAlternatives clauseB ≠ []) :
    clauseSubsumes hashStringOf (normalizeClause hashStringOf (orClause
        (listed (clauseAlternatives clauseA) ++ listed (clauseAlternatives clauseB)))) clause = true ↔
      clauseSubsumes hashStringOf clauseA clause = true ∧
        clauseSubsumes hashStringOf clauseB clause = true := by
  rw [hA.listed, hB.listed, clauseSubsumes_iff, clauseSubsumes_iff, clauseSubsumes_iff]
  simp only [mem_alternatives_normalizeClause, List.mem_append]
  have hnonempty : clauseAlternatives (normalizeClause hashStringOf
      (orClause (visitedAlternatives clauseA ++ visitedAlternatives clauseB))) ≠ [] := by
    obtain ⟨x, hx⟩ := List.exists_mem_of_ne_nil _ (hA.visited_ne_nil.2 ha)
    exact List.ne_nil_of_mem (mem_visitedAlternatives.1
      (mem_alternatives_normalizeClause.2 (List.mem_append_left _ hx)))
  constructor
  · intro h
    exact ⟨⟨ha, fun x hx => h.2 x (.inl hx)⟩, ⟨hb, fun x hx => h.2 x (.inr hx)⟩⟩
  · intro h
    refine ⟨hnonempty, fun x hx => ?_⟩
    cases hx with
    | inl hx => exact h.1.2 x hx
    | inr hx => exact h.2.2 x hx

theorem mem_clauseUnions {a b : List FabricValue} :
    clause ∈ clauseUnions hashStringOf a b ↔
      ∃ clauseA ∈ a, clauseAlternatives clauseA ≠ [] ∧
        ∃ clauseB ∈ b, clauseAlternatives clauseB ≠ [] ∧
          clause = normalizeClause hashStringOf (orClause
            (listed (clauseAlternatives clauseA) ++ listed (clauseAlternatives clauseB))) := by
  unfold clauseUnions
  rw [List.mem_flatMap]
  refine exists_congr fun clauseA => and_congr_right fun _ => ?_
  by_cases ha : clauseAlternatives clauseA = []
  · simp [ha]
  · rw [if_neg ha, List.mem_flatMap]
    simp only [ne_eq, ha, not_false_eq_true, true_and]
    refine exists_congr fun clauseB => and_congr_right fun _ => ?_
    by_cases hb : clauseAlternatives clauseB = []
    · simp [hb]
    · simp [hb]

/-- No clause of the ceiling has a hole among its alternatives. -/
def HolelessCeiling (ceiling : MaxConfidentiality) : Prop := ∀ clause ∈ ceiling.getD [], NoHoles clause

/-- A clause that one of the unions subsumes is subsumed in both ceilings, and conversely. -/
theorem subsumed_by_union {a b : List FabricValue} (hA : HolelessCeiling (some a))
    (hB : HolelessCeiling (some b)) :
    (∃ allowed ∈ uniqueCfcAtoms (clauseUnions hashStringOf a b),
        clauseSubsumes hashStringOf allowed clause = true) ↔
      (∃ allowed ∈ a, clauseSubsumes hashStringOf allowed clause = true) ∧
        ∃ allowed ∈ b, clauseSubsumes hashStringOf allowed clause = true := by
  constructor
  · rintro ⟨allowed, hmem, hsubsumes⟩
    obtain ⟨clauseA, hamem, ha, clauseB, hbmem, hb, rfl⟩ :=
      mem_clauseUnions.1 (mem_uniqueCfcAtoms.1 hmem)
    obtain ⟨hsubA, hsubB⟩ :=
      (clauseSubsumes_union (hA _ hamem) (hB _ hbmem) ha hb).1 hsubsumes
    exact ⟨⟨clauseA, hamem, hsubA⟩, ⟨clauseB, hbmem, hsubB⟩⟩
  · rintro ⟨⟨clauseA, hamem, hsubA⟩, ⟨clauseB, hbmem, hsubB⟩⟩
    have ha := (clauseSubsumes_iff.1 hsubA).1
    have hb := (clauseSubsumes_iff.1 hsubB).1
    exact ⟨_, mem_uniqueCfcAtoms.2 (mem_clauseUnions.2 ⟨clauseA, hamem, ha, clauseB, hbmem, hb, rfl⟩),
      (clauseSubsumes_union (hA _ hamem) (hB _ hbmem) ha hb).2 ⟨hsubA, hsubB⟩⟩

theorem fits_meet {a b : MaxConfidentiality} (hA : HolelessCeiling a) (hB : HolelessCeiling b)
    (label : List FabricValue) :
    cfcObservationFitsCeiling hashStringOf label (meetCfcObservationCeilings hashStringOf a b) =
      (cfcObservationFitsCeiling hashStringOf label a &&
        cfcObservationFitsCeiling hashStringOf label b) := by
  cases a with
  | none => simp [meetCfcObservationCeilings, cfcObservationFitsCeiling]
  | some a =>
    cases b with
    | none => simp [meetCfcObservationCeilings, cfcObservationFitsCeiling]
    | some b =>
      rw [Bool.eq_iff_iff, Bool.and_eq_true]
      simp only [meetCfcObservationCeilings, fits_iff, subsumed_by_union hA hB]
      constructor
      · intro h
        exact ⟨fun clause hc => ⟨(h clause hc).1, (h clause hc).2.1⟩,
          fun clause hc => ⟨(h clause hc).1, (h clause hc).2.2⟩⟩
      · intro h clause hc
        exact ⟨(h.1 clause hc).1, (h.1 clause hc).2, (h.2 clause hc).2⟩

theorem fits_of_subset {label' : List FabricValue} (hsub : ∀ clause ∈ label', clause ∈ label)
    (ceiling : MaxConfidentiality)
    (h : cfcObservationFitsCeiling hashStringOf label ceiling = true) :
    cfcObservationFitsCeiling hashStringOf label' ceiling = true := by
  cases ceiling with
  | none => rfl
  | some ceiling => exact fits_iff.2 fun clause hclause => fits_iff.1 h clause (hsub clause hclause)

/-- Each clause of the one ceiling is kept in the other, with no alternative but those it had or
ones that loosen one of them. No ceiling at all is the highest. -/
def RaisedBy (loosens : FabricValue → FabricValue → Prop) :
    MaxConfidentiality → MaxConfidentiality → Prop
  | _, none => True
  | none, some _ => False
  | some low, some high => ∀ clause ∈ low, clauseAlternatives clause ≠ [] →
      ∃ clause' ∈ high, clauseAlternatives clause' ≠ [] ∧
        ∀ x ∈ visitedAlternatives clause', ∃ y ∈ visitedAlternatives clause, x = y ∨ loosens x y

/-- Clauses are added, and alternatives taken out of a clause that keeps some. -/
def Raised : MaxConfidentiality → MaxConfidentiality → Prop := RaisedBy fun _ _ => False

/-- Also, deadlines are brought forward. -/
def RaisedInTime : MaxConfidentiality → MaxConfidentiality → Prop :=
  RaisedBy fun x y => ∃ sooner later, expiresTimestamp? x = some sooner ∧
    expiresTimestamp? y = some later ∧ sooner ≤ later

theorem fits_raisedBy {loosens : FabricValue → FabricValue → Prop} {low high : MaxConfidentiality}
    (hraised : RaisedBy loosens low high)
    (hloosens : ∀ x y, loosens x y → ∀ clause ∈ label, ∀ z ∈ visitedAlternatives clause,
      answers hashStringOf y z = true → answers hashStringOf x z = true)
    (h : cfcObservationFitsCeiling hashStringOf label low = true) :
    cfcObservationFitsCeiling hashStringOf label high = true := by
  cases high with
  | none => rfl
  | some high =>
    cases low with
    | none => exact hraised.elim
    | some low =>
      rw [fits_iff] at h ⊢
      intro clause hclause
      obtain ⟨hclear, allowed, hallowed, hsubsumes⟩ := h clause hclause
      obtain ⟨hne, hall⟩ := clauseSubsumes_iff.1 hsubsumes
      obtain ⟨higher, hhigher, hne', halternatives⟩ := hraised allowed hallowed hne
      refine ⟨hclear, higher, hhigher, clauseSubsumes_iff.2 ⟨hne', fun x hx => ?_⟩⟩
      obtain ⟨y, hy, hxy⟩ := halternatives x hx
      obtain ⟨z, hz, hanswers⟩ := hall y hy
      cases hxy with
      | inl heq => exact ⟨z, hz, heq ▸ hanswers⟩
      | inr hloose => exact ⟨z, hz, hloosens x y hloose clause hclause z hz hanswers⟩

theorem fits_raised {low high : MaxConfidentiality} (hraised : Raised low high)
    (h : cfcObservationFitsCeiling hashStringOf label low = true) :
    cfcObservationFitsCeiling hashStringOf label high = true := by
  apply fits_raisedBy hraised _ h
  intro x y hfalse
  exact hfalse.elim

theorem get?_keySortedFields (fields : Members) (key : JsString) :
    Fields.get? (keySortedFields fields) key = (Fields.get? fields key).map keySorted := by
  induction fields with
  | nil => rfl
  | cons field fields ih =>
    obtain ⟨name, value⟩ := field
    rw [keySortedFields, Fields.get?_set, Fields.get?_cons, ih]
    split <;> rfl

theorem mem_keys_set {key name : JsString}
    (h : name ∈ (Fields.set fields key v).map (·.1)) : name = key ∨ name ∈ fields.map (·.1) := by
  induction fields with
  | nil => simpa [Fields.set] using h
  | cons field fields ih =>
    obtain ⟨k, x⟩ := field
    rw [Fields.set] at h
    split at h
    · rename_i heq
      simp only [List.map_cons, List.mem_cons] at h ⊢
      cases h with
      | inl h => exact .inl h
      | inr h => exact .inr (.inr h)
    · split at h
      · simpa using h
      · simp only [List.map_cons, List.mem_cons] at h ⊢
        cases h with
        | inl h => exact .inr (.inl h)
        | inr h =>
          cases ih h with
          | inl h => exact .inl h
          | inr h => exact .inr (.inr h)

theorem mem_keys_keySortedFields {name : JsString}
    (h : name ∈ (keySortedFields fields).map (·.1)) : name ∈ fields.map (·.1) := by
  induction fields with
  | nil => exact h
  | cons field fields ih =>
    rw [keySortedFields] at h
    cases mem_keys_set h with
    | inl heq => exact heq ▸ List.mem_cons_self
    | inr hmem => exact List.mem_cons_of_mem _ (ih hmem)

theorem length_set_of_not_mem {key : JsString}
    (h : key ∉ fields.map (·.1)) : (Fields.set fields key v).length = fields.length + 1 := by
  induction fields with
  | nil => rfl
  | cons field fields ih =>
    obtain ⟨k, x⟩ := field
    simp only [List.map_cons, List.mem_cons, not_or] at h
    rw [Fields.set, if_neg (Ne.symm h.1)]
    split
    · rfl
    · rw [List.length_cons, ih h.2, List.length_cons]

theorem length_keySortedFields (h : (fields.map (·.1)).Nodup) :
    (keySortedFields fields).length = fields.length := by
  induction fields with
  | nil => rfl
  | cons field fields ih =>
    rw [List.map_cons, List.nodup_cons] at h
    have hnot : field.1 ∉ (keySortedFields fields).map (·.1) := fun hmem =>
      h.1 (mem_keys_keySortedFields hmem)
    rw [keySortedFields, length_set_of_not_mem hnot, ih h.2, List.length_cons]

/-- A deadline in its ordered shape, with its members in key order. -/
def deadline (n : JsNumber) : FabricValue :=
  .record [("timestamp", .number n), ("type", .string EXPIRES_TYPE)]

/-- A record of two members, of both of which the keys are known. -/
theorem two_fields {key key' : JsString} {v' : FabricValue} (hne : key ≠ key')
    (hlength : fields.length = 2) (h : Fields.get? fields key = some v)
    (h' : Fields.get? fields key' = some v') :
    fields = [(key, v), (key', v')] ∨ fields = [(key', v'), (key, v)] := by
  obtain ⟨⟨k₁, x₁⟩, ⟨k₂, x₂⟩, rfl⟩ := List.length_eq_two.1 hlength
  simp only [Fields.get?_cons, Fields.get?_nil] at h h'
  by_cases h₁ : k₁ = key
  · subst h₁
    rw [if_pos rfl] at h
    rw [if_neg hne] at h'
    split at h'
    · rename_i h₂
      subst h₂
      cases h
      cases h'
      exact .inl rfl
    · cases h'
  · rw [if_neg h₁] at h
    split at h
    · rename_i h₂
      subst h₂
      split at h'
      · rename_i h₁'
        subst h₁'
        cases h
        cases h'
        exact .inr rfl
      · cases h'
    · cases h

theorem expiresTimestamp?_shape {t : ℚ} (h : expiresTimestamp? a = some t) :
    ∃ n, n.toRat? = some t ∧ (a = deadline n ∨
      a = .record [("type", .string EXPIRES_TYPE), ("timestamp", .number n)]) := by
  cases a with
  | record fields =>
    unfold expiresTimestamp? at h
    dsimp only at h
    split at h
    · rename_i hshape
      split at h
      · rename_i n htimestamp
        refine ⟨n, h, ?_⟩
        cases two_fields (by decide) hshape.1 htimestamp hshape.2 with
        | inl hfields => exact .inl (by rw [hfields]; rfl)
        | inr hfields => exact .inr (by rw [hfields])
      · cases h
    · cases h
  | _ => cases h

theorem keySorted_deadline {t : ℚ} (h : expiresTimestamp? a = some t) :
    ∃ n, n.toRat? = some t ∧ keySorted a = deadline n := by
  obtain ⟨n, hn, rfl | rfl⟩ := expiresTimestamp?_shape h
  · exact ⟨n, hn, rfl⟩
  · exact ⟨n, hn, rfl⟩

theorem deadline_holds_no_commitment {t : ℚ} (h : expiresTimestamp? a = some t) :
    containsCfcFieldCommitment a = false := by
  obtain ⟨n, _, rfl | rfl⟩ := expiresTimestamp?_shape h
  · rfl
  · rfl

/-- A record's keys are its own, each once. -/
def KeysDistinct : FabricValue → Prop
  | .record fields => (fields.map (·.1)).Nodup
  | _ => True

variable (hashStringOf) in
/-- An atom that is no deadline, and equals one under a commitment. -/
def HidesDeadline (atom : FabricValue) : Prop :=
  expiresTimestamp? atom = none ∧
    ∃ y t, expiresTimestamp? y = some t ∧ commitmentAwareEquals hashStringOf y atom = true

variable (hashStringOf) in
/-- No alternative of the label hides a deadline. -/
def DeadlinesShown (label : List FabricValue) : Prop :=
  ∀ clause ∈ label, ∀ z ∈ visitedAlternatives clause,
    KeysDistinct z ∧ ¬HidesDeadline hashStringOf z

theorem eq_string_of_keySorted {s : JsString} (h : keySorted a = .string s) :
    a = .string s := by
  cases a <;> simp_all [keySorted]

theorem eq_number_of_keySorted {n : JsNumber} (h : keySorted a = .number n) :
    a = .number n := by
  cases a <;> simp_all [keySorted]

/-- What has a deadline's members in some order is that deadline. -/
theorem expiresTimestamp?_of_keySorted {z : FabricValue} {n : JsNumber} (hkeys : KeysDistinct z)
    (h : keySorted z = deadline n) : expiresTimestamp? z = n.toRat? := by
  cases z with
  | record fields =>
    have hfields : keySortedFields fields =
        ([("timestamp", .number n), ("type", .string EXPIRES_TYPE)] : Members) := by
      simpa [keySorted, deadline] using h
    have hlength : fields.length = 2 := by
      rw [← length_keySortedFields hkeys, hfields]
      rfl
    have htype : Fields.get? fields "type" = some (.string EXPIRES_TYPE) := by
      have hget := get?_keySortedFields fields "type"
      rw [hfields] at hget
      obtain ⟨v, hv, hsorted⟩ := Option.map_eq_some_iff.1 hget.symm
      rw [hv, eq_string_of_keySorted hsorted]
    have htimestamp : Fields.get? fields "timestamp" = some (.number n) := by
      have hget := get?_keySortedFields fields "timestamp"
      rw [hfields] at hget
      obtain ⟨v, hv, hsorted⟩ := Option.map_eq_some_iff.1 hget.symm
      rw [hv, eq_number_of_keySorted hsorted]
    simp [expiresTimestamp?, hlength, htype, htimestamp]
  | _ => simp [keySorted, deadline] at h

/-- What a deadline entails, and hides none, is a deadline, and no sooner. -/
theorem entailed_by_deadline {y z : FabricValue} {later : ℚ} (hy : expiresTimestamp? y = some later)
    (hkeys : KeysDistinct z) (hshown : ¬HidesDeadline hashStringOf z)
    (h : atomEntails hashStringOf y z = true) :
    ∃ t, expiresTimestamp? z = some t ∧ later ≤ t := by
  unfold atomEntails at h
  split at h
  · rename_i hsame
    obtain ⟨n, hn, hsorted⟩ := keySorted_deadline hy
    have hz : keySorted z = deadline n := by
      rw [← hsorted]
      exact (of_decide_eq_true hsame).symm
    exact ⟨later, (expiresTimestamp?_of_keySorted hkeys hz).trans hn, le_refl _⟩
  · rw [hy] at h
    cases hz : expiresTimestamp? z with
    | none =>
      rw [hz] at h
      exact absurd ⟨hz, y, later, hy, (Bool.and_eq_true _ _ ▸ h).2⟩ hshown
    | some t =>
      rw [hz] at h
      exact ⟨t, rfl, of_decide_eq_true h⟩

theorem personalSpaceOwnerAsReader?_ok {z reader : FabricValue}
    (h : personalSpaceOwnerAsReader? z = some reader) :
    ∃ owner, reader = .record [("subject", owner), ("type", .string USER_TYPE)] := by
  cases z with
  | record fields =>
    unfold personalSpaceOwnerAsReader? at h
    dsimp only at h
    split at h
    · rename_i owner _ _
      split at h
      · exact ⟨owner, (Option.some.inj h).symm⟩
      · cases h
    · cases h
  | _ => cases h

theorem deadline_not_same_user {y did : FabricValue} {later : ℚ}
    (hy : expiresTimestamp? y = some later) :
    sameValue y (.record [("subject", did), ("type", .string USER_TYPE)]) = false := by
  obtain ⟨n, _, hsorted⟩ := keySorted_deadline hy
  have huser : keySorted (.record [("subject", did), ("type", .string USER_TYPE)]) =
      .record [("subject", keySorted did), ("type", .string USER_TYPE)] := rfl
  unfold sameValue
  rw [hsorted, huser, decide_eq_false_iff_not]
  intro heq
  have hkey := (Prod.mk.inj (List.cons.inj (FabricValue.record.inj heq)).1).1
  exact absurd hkey (by decide)

/-- A user has no timestamp, so no deadline equals one, written out or committed. -/
theorem deadline_unlike_user {y did : FabricValue} {later : ℚ}
    (hy : expiresTimestamp? y = some later) :
    commitmentAwareEquals hashStringOf y
      (.record [("subject", did), ("type", .string USER_TYPE)]) = false := by
  have hdiffers : sameValue y (.record [("subject", did), ("type", .string USER_TYPE)]) = false :=
    deadline_not_same_user hy
  have htimestamp : Fields.get? ([("subject", did), ("type", .string USER_TYPE)] : Members)
      "timestamp" = none := by
    rw [Fields.get?_cons, if_neg (by decide), Fields.get?_cons, if_neg (by decide), Fields.get?_nil]
  obtain ⟨n, _, rfl | rfl⟩ := expiresTimestamp?_shape hy
  · rw [deadline, commitmentAwareEquals, commitmentOr, ← deadline, hdiffers, if_neg (by decide)]
    simp [fieldCommitment?, deadline, fieldsAwareEqual, htimestamp]
  · rw [commitmentAwareEquals, commitmentOr, hdiffers, if_neg (by decide)]
    simp [fieldCommitment?, fieldsAwareEqual, htimestamp]

theorem user_hides_no_deadline (did : FabricValue) :
    ¬HidesDeadline hashStringOf (.record [("subject", did), ("type", .string USER_TYPE)]) := by
  rintro ⟨_, y, t, hy, haware⟩
  rw [deadline_unlike_user hy] at haware
  cases haware

theorem expiresTimestamp?_user (did : FabricValue) :
    expiresTimestamp? (.record [("subject", did), ("type", .string USER_TYPE)]) = none := by
  have htype : Fields.get? ([("subject", did), ("type", .string USER_TYPE)] : Members) "type" =
      some (.string USER_TYPE) := rfl
  unfold expiresTimestamp?
  dsimp only
  rw [htype, if_neg]
  rintro ⟨_, heq⟩
  exact absurd (FabricValue.string.inj (Option.some.inj heq)) (by decide)

/-- The owner of a space stands for no deadline. -/
theorem owner_entailed_by_no_deadline {y z owner : FabricValue} {later : ℚ}
    (hy : expiresTimestamp? y = some later) (howner : personalSpaceOwnerAsReader? z = some owner) :
    atomEntails hashStringOf y owner = false := by
  obtain ⟨did, rfl⟩ := personalSpaceOwnerAsReader?_ok howner
  unfold atomEntails
  rw [deadline_not_same_user hy, if_neg (by decide), hy, expiresTimestamp?_user,
    deadline_unlike_user hy]
  exact Bool.and_false _

/-- A label atom that hides no deadline and answers one answers every sooner one. -/
theorem answers_sooner {x y z : FabricValue} {sooner later : ℚ}
    (hx : expiresTimestamp? x = some sooner) (hy : expiresTimestamp? y = some later)
    (hle : sooner ≤ later) (hkeys : KeysDistinct z)
    (hshown : ¬HidesDeadline hashStringOf z) (h : answers hashStringOf y z = true) :
    answers hashStringOf x z = true := by
  unfold answers at h ⊢
  rw [Bool.or_eq_true] at h ⊢
  cases h with
  | inl h =>
    obtain ⟨t, ht, hlater⟩ := entailed_by_deadline hy hkeys hshown h
    left
    unfold atomEntails
    split
    · rfl
    · rw [hx, ht]
      exact decide_eq_true (hle.trans hlater)
  | inr h =>
    cases howner : personalSpaceOwnerAsReader? z with
    | none => rw [howner] at h; cases h
    | some owner =>
      rw [howner, Option.any_some, owner_entailed_by_no_deadline hy howner] at h
      cases h

theorem fits_raisedInTime {low high : MaxConfidentiality}
    (hraised : RaisedInTime low high) (hshown : DeadlinesShown hashStringOf label)
    (h : cfcObservationFitsCeiling hashStringOf label low = true) :
    cfcObservationFitsCeiling hashStringOf label high = true := by
  apply fits_raisedBy hraised _ h
  rintro x y ⟨sooner, later, hx, hy, hle⟩ clause hclause z hz hanswers
  obtain ⟨hkeys, hnone⟩ := hshown clause hclause z hz
  exact answers_sooner hx hy hle hkeys hnone hanswers

theorem deadline_raisedInTime {sooner later : ℚ} (hle : sooner ≤ later) :
    RaisedInTime (some [deadline (.finite later)]) (some [deadline (.finite sooner)]) := by
  intro clause hclause _
  refine ⟨deadline (.finite sooner), List.mem_cons_self, List.cons_ne_nil _ _, fun x hx => ?_⟩
  rw [List.mem_singleton.1 hclause]
  refine ⟨deadline (.finite later), List.mem_cons_self, .inr ?_⟩
  rw [List.mem_singleton.1 hx]
  exact ⟨sooner, later, rfl, rfl, hle⟩

/-- A label fits the meet of two ceilings exactly when it fits both, and goes on fitting with
fewer clauses and under a higher ceiling. -/
theorem ceiling_meet_exact (hashStringOf : FabricValue → JsString) :
    (∀ (a b : MaxConfidentiality) (label : List FabricValue), HolelessCeiling a →
        HolelessCeiling b →
        cfcObservationFitsCeiling hashStringOf label
            (meetCfcObservationCeilings hashStringOf a b) =
          (cfcObservationFitsCeiling hashStringOf label a &&
            cfcObservationFitsCeiling hashStringOf label b)) ∧
      (∀ (ceiling : MaxConfidentiality) (label label' : List FabricValue),
        (∀ clause ∈ label', clause ∈ label) →
        cfcObservationFitsCeiling hashStringOf label ceiling = true →
        cfcObservationFitsCeiling hashStringOf label' ceiling = true) ∧
      (∀ (low high : MaxConfidentiality) (label : List FabricValue), Raised low high →
        cfcObservationFitsCeiling hashStringOf label low = true →
        cfcObservationFitsCeiling hashStringOf label high = true) ∧
      ∀ (low high : MaxConfidentiality) (label : List FabricValue), RaisedInTime low high →
        DeadlinesShown hashStringOf label → cfcObservationFitsCeiling hashStringOf label low = true →
        cfcObservationFitsCeiling hashStringOf label high = true :=
  ⟨fun _ _ label hA hB => fits_meet hA hB label,
    fun ceiling _ _ hsub h => fits_of_subset hsub ceiling h,
    fun _ _ _ hraised h => fits_raised hraised h,
    fun _ _ _ hraised hshown h => fits_raisedInTime hraised hshown h⟩

/-- A reader or a deadline, met with the one reader; and a ceiling that is raised over a label
that commits the subject of a user. -/
theorem ceiling_meet_exact_reader :
    let ceiling : MaxConfidentiality := some [orClause [.string "alice", deadline (.finite 3)]]
    let user := .record [("subject", fieldCommitment "bob"), ("type", .string USER_TYPE)]
    cfcObservationFitsCeiling (fun _ => "") [orClause [deadline (.finite 5), .string "alice"]]
        (meetCfcObservationCeilings (fun _ => "") ceiling (some [.string "alice"])) = true ∧
      cfcObservationFitsCeiling (fun _ => "") [orClause [user, deadline (.finite 7)]]
        (some [deadline (.finite 3)]) = true := by
  intro ceiling user
  constructor
  · rw [(ceiling_meet_exact _).1 _ _ _ (by unfold HolelessCeiling; decide +kernel)
      (by unfold HolelessCeiling; decide +kernel)]
    decide +kernel
  · refine (ceiling_meet_exact _).2.2.2 (some [deadline (.finite 5)]) _ _
      (deadline_raisedInTime (by decide +kernel)) (fun clause hclause z hz => ?_)
      (by decide +kernel)
    rw [List.mem_singleton.1 hclause, visitedAlternatives_orClause] at hz
    rcases List.mem_pair.1 hz with rfl | rfl
    · exact ⟨by unfold KeysDistinct; decide +kernel, user_hides_no_deadline _⟩
    · refine ⟨by unfold KeysDistinct deadline; decide +kernel, fun h => ?_⟩
      cases h.1

/-- Tells two deadlines apart. -/
def deadlineHash (v : FabricValue) : JsString := if v = deadline (.finite 5) then "5" else "3"

/-- A clause with a hole meets itself in one that asks for `undefined` too, and a label that
commits a deadline answers that deadline and no sooner one. -/
theorem ceiling_meet_inexact :
    let holed : FabricValue := .record [("anyOf", .array [none, some (.string "alice")])]
    (cfcObservationFitsCeiling deadlineHash [.string "alice"] (some [holed]) = true ∧
      cfcObservationFitsCeiling deadlineHash [.string "alice"]
        (meetCfcObservationCeilings deadlineHash (some [holed]) (some [holed])) = false) ∧
    RaisedInTime (some [deadline (.finite 5)]) (some [deadline (.finite 3)]) ∧
      cfcObservationFitsCeiling deadlineHash [fieldCommitment "5"]
        (some [deadline (.finite 5)]) = true ∧
      cfcObservationFitsCeiling deadlineHash [fieldCommitment "5"]
        (some [deadline (.finite 3)]) = false := by
  intro holed
  have hruns : (cfcObservationFitsCeiling deadlineHash [.string "alice"] (some [holed]) = true ∧
      cfcObservationFitsCeiling deadlineHash [.string "alice"]
        (meetCfcObservationCeilings deadlineHash (some [holed]) (some [holed])) = false) ∧
      cfcObservationFitsCeiling deadlineHash [fieldCommitment "5"]
        (some [deadline (.finite 5)]) = true ∧
      cfcObservationFitsCeiling deadlineHash [fieldCommitment "5"]
        (some [deadline (.finite 3)]) = false := by
    decide +kernel
  exact ⟨hruns.1, deadline_raisedInTime (by decide +kernel), hruns.2⟩

end
end Cfc
