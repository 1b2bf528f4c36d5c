import CommonFabric.PreparedView

/-!
# A prepared digest is a function of its facts

The canonical form of a prepared digest is unchanged by a second pass. What its lists say, but for
their order, is determined by it; and records in another order give the same form, where the
records that a list does not tell apart keep their order.
-/

namespace Cfc

open KeySort

variable {hashStringOf : HashSubject → JsString}

theorem canonicalizeWritePolicyInput_idem (input : WritePolicyInput) :
    canonicalizeWritePolicyInput hashStringOf (canonicalizeWritePolicyInput hashStringOf input) =
      canonicalizeWritePolicyInput hashStringOf input := by
  cases input with
  | structuralProvenance target claim sources =>
    simp only [canonicalizeWritePolicyInput, sortBy_idem]
  | linkWrite target source linkSchema cfcLabelView =>
    simp only [canonicalizeWritePolicyInput, canonicalLinkView_idem]
  | _ => rfl

theorem canonicalDelegation_idem (entry : ModuleDelegationSnapshotEntry) :
    canonicalDelegation (canonicalDelegation entry) = canonicalDelegation entry := by
  simp only [canonicalDelegation, sortBy_idem]

variable {α : Type} {xs ys : List α}

theorem whenAny_idem {canonical : List α → List α}
    (hnil : ∀ xs, canonical xs = [] ↔ xs = [])
    (hidem : ∀ xs, canonical (canonical xs) = canonical xs)
    (xs : Option (List α)) : whenAny canonical (whenAny canonical xs) = whenAny canonical xs := by
  cases xs with
  | none => rfl
  | some xs =>
    by_cases h : xs = []
    · simp [whenAny, h]
    · have hne : canonical xs ≠ [] := fun heq => h ((hnil xs).1 heq)
      simp [whenAny, h, hne, hidem]

theorem dedupeSorted_eq_nil {κ : Type} [DecidableEq κ] {key : α → κ} :
    dedupeSorted key xs = [] ↔ xs = [] := by
  cases xs <;> simp [dedupeSorted]

theorem canonicalizePreparedDigestInput_idem (input : PreparedDigestInput) :
    canonicalizePreparedDigestInput hashStringOf
        (canonicalizePreparedDigestInput hashStringOf input) =
      canonicalizePreparedDigestInput hashStringOf input := by
  rw [canonicalizePreparedDigestInput]
  simp only [canonicalizePreparedDigestInput, sortBy_idem, dedupeSorted_sortBy_idem,
    PreparedDigestInput.mk.injEq, true_and]
  refine ⟨?inputs, ?delegations, ?grants, ?manifests, ?labels, ?externals, ?roots, ?containers⟩
  case inputs => exact sortBy_map_idem canonicalizeWritePolicyInput_idem _
  case delegations =>
    apply whenAny_idem
    · intro entries
      rw [sortBy_eq_nil, List.map_eq_nil_iff]
    · exact sortBy_map_idem canonicalDelegation_idem
  case roots =>
    apply whenAny_idem
    · intro roots
      rw [canonicalRoots, dedupeSorted_eq_nil, sortBy_eq_nil]
    · exact dedupeSorted_sortBy_idem
  case containers =>
    apply whenAny_idem
    · intro containers
      rw [dedupeSorted_eq_nil, sortBy_eq_nil]
    · exact dedupeSorted_sortBy_idem
  all_goals exact whenAny_idem (fun _ => sortBy_eq_nil) sortBy_idem _

/-- No two of the values that are hashed have one hash. -/
def NoCollision (hashStringOf : HashSubject → JsString) (subjects : List HashSubject) : Prop :=
  ∀ a ∈ subjects, ∀ b ∈ subjects, hashStringOf a = hashStringOf b → a = b

/-- What is hashed for a digest, to sort by or to give the digest itself. -/
def hashedFor (hashStringOf : HashSubject → JsString) (input : PreparedDigestInput) :
    List HashSubject :=
  (input.writePolicyInputs.map fun i => .policyInput (canonicalizeWritePolicyInput hashStringOf i)) ++
  ((input.consultedPolicyManifests.getD []).map fun manifest => .value manifest.reference) ++
  ((input.labelMetadataObservations.getD []).map .labelObservation) ++
  ((input.externalContentObservations.getD []).map .externalObservation) ++
  ((input.assertedValueRoots.getD []).map .root) ++
  [.prepared (canonicalizePreparedDigestInput hashStringOf input)]

/-- Two views of a link that say the same, or are the same. -/
def SameView (hashStringOf : HashSubject → JsString) (v w : Option CfcLabelView) : Prop :=
  v = w ∨ viewFacts hashStringOf v ≠ [] ∧
    (viewFacts hashStringOf v).Perm (viewFacts hashStringOf w)

/-- A view with a label in it, with its entries in another order, those of one path as they were. -/
def RearrangedView (hashStringOf : HashSubject → JsString) (v w : Option CfcLabelView) : Prop :=
  v = w ∨ viewFacts hashStringOf v ≠ [] ∧
    ∀ path, (entriesOf v).filter (·.path = path) = (entriesOf w).filter (·.path = path)

/-- Two policy records that differ in the order of what they list alone. -/
inductive SameInput (View : Option CfcLabelView → Option CfcLabelView → Prop) :
    WritePolicyInput → WritePolicyInput → Prop where
  | same (input : WritePolicyInput) : SameInput View input input
  | sources (target : CfcAddress) (claim : JsString) {sources sources' : List CfcAddress}
      (h : sources.Perm sources') :
      SameInput View (.structuralProvenance target claim sources)
        (.structuralProvenance target claim sources')
  | view (target source : CfcAddress) (linkSchema : Option FabricValue)
      {v w : Option CfcLabelView} (h : View v w) :
      SameInput View (.linkWrite target source linkSchema v) (.linkWrite target source linkSchema w)

structure SameDelegation (a b : ModuleDelegationSnapshotEntry) : Prop where
  space : a.space = b.space
  moduleIdentity : a.moduleIdentity = b.moduleIdentity
  delegated : a.delegatedModuleIdentities.Perm b.delegatedModuleIdentities

/-- Two lists whose members correspond to one another, in some order. -/
def Corresponds {α : Type} (R : α → α → Prop) (xs ys : List α) : Prop :=
  ∃ zs, xs.Perm zs ∧ List.Forall₂ R zs ys

/-- Two inputs that record the same facts. The traces, the roots and the containers are sets. -/
structure SameFacts (hashStringOf : HashSubject → JsString) (x y : PreparedDigestInput) : Prop where
  consumedReads : x.consumedReads.Perm y.consumedReads
  attemptedWrites : x.attemptedWrites.Perm y.attemptedWrites
  writes : x.writes.Perm y.writes
  writeAttemptLog : x.writeAttemptLog.Perm y.writeAttemptLog
  triggerReads : x.triggerReads.Perm y.triggerReads
  dereferenceTraces : ∀ trace, trace ∈ x.dereferenceTraces ↔ trace ∈ y.dereferenceTraces
  writePolicyInputs :
    Corresponds (SameInput (SameView hashStringOf)) x.writePolicyInputs y.writePolicyInputs
  implementationIdentity : x.implementationIdentity = y.implementationIdentity
  trustSnapshot : x.trustSnapshot = y.trustSnapshot
  moduleDelegations :
    Corresponds SameDelegation (x.moduleDelegations.getD []) (y.moduleDelegations.getD [])
  policySnapshot : x.policySnapshot = y.policySnapshot
  consultedGrants : (x.consultedGrants.getD []).Perm (y.consultedGrants.getD [])
  consultedPolicyManifests :
    (x.consultedPolicyManifests.getD []).Perm (y.consultedPolicyManifests.getD [])
  labelMetadataObservations :
    (x.labelMetadataObservations.getD []).Perm (y.labelMetadataObservations.getD [])
  externalContentObservations :
    (x.externalContentObservations.getD []).Perm (y.externalContentObservations.getD [])
  assertedValueRoots :
    ∀ root, root ∈ x.assertedValueRoots.getD [] ↔ root ∈ y.assertedValueRoots.getD []
  structureContainers :
    ∀ container, container ∈ x.structureContainers.getD [] ↔
      container ∈ y.structureContainers.getD []

/-- The same facts recorded in another order, those that a list does not tell apart in the same
one: the reads of an address, the attempts of a journal index, the delegations of a module and the
entries of a path. -/
structure Rearranged (hashStringOf : HashSubject → JsString) (x y : PreparedDigestInput) : Prop
    extends SameFacts hashStringOf x y where
  readsInOrder : ∀ address,
    x.consumedReads.filter (·.address = address) = y.consumedReads.filter (·.address = address)
  attemptsInOrder : ∀ index,
    x.writeAttemptLog.filter (·.journalIndex = index) =
      y.writeAttemptLog.filter (·.journalIndex = index)
  inputsInOrder :
    Corresponds (SameInput (RearrangedView hashStringOf)) x.writePolicyInputs y.writePolicyInputs
  delegationsInOrder : ∀ key, List.Forall₂ SameDelegation
    ((x.moduleDelegations.getD []).filter (moduleDelegationKey · = key))
    ((y.moduleDelegations.getD []).filter (moduleDelegationKey · = key))

/-- A key that is one-to-one with another keeps the order that the other does. -/
theorem filter_eq_of_injective {κ τ : Type} [DecidableEq κ] [DecidableEq τ] {key : α → κ}
    {g : κ → τ} (hg : Function.Injective g)
    (h : ∀ k, xs.filter (key · = k) = ys.filter (key · = k)) (t : τ) :
    xs.filter (fun a => g (key a) = t) = ys.filter fun a => g (key a) = t := by
  by_cases ht : ∃ k, g k = t
  · obtain ⟨k, rfl⟩ := ht
    simpa [hg.eq_iff] using h k
  · have hnone : ∀ a, ¬g (key a) = t := fun a ha => ht ⟨key a, ha⟩
    simp [hnone]

theorem whenAny_eq_iff {canonical : List α → List α}
    (hnil : ∀ xs, canonical xs = [] ↔ xs = []) {xs ys : Option (List α)} :
    whenAny canonical xs = whenAny canonical ys ↔ canonical (xs.getD []) = canonical (ys.getD []) := by
  have hform : ∀ zs : Option (List α), whenAny canonical zs =
      if canonical (zs.getD []) = [] then none else some (canonical (zs.getD [])) := by
    intro zs
    cases zs with
    | none => simp [whenAny, (hnil []).2 rfl]
    | some zs => simp [whenAny, hnil]
  rw [hform, hform]
  constructor
  · intro h
    split at h
    case isTrue hx =>
      split at h
      case isTrue hy => rw [hx, hy]
      case isFalse => cases h
    case isFalse =>
      split at h
      case isTrue => cases h
      case isFalse => exact Option.some.inj h
  · intro h
    rw [h]

theorem forall₂_map_eq {β : Type} {f : α → β} :
    List.Forall₂ (fun a b => f a = f b) xs ys ↔ xs.map f = ys.map f := by
  rw [← List.forall₂_eq_eq_eq, List.forall₂_map_left_iff, List.forall₂_map_right_iff]

theorem Corresponds.map_perm {β : Type} {R : α → α → Prop} {f : α → β}
    (hf : ∀ a b, R a b → f a = f b) (h : Corresponds R xs ys) :
    (xs.map f).Perm (ys.map f) := by
  obtain ⟨zs, hperm, hrel⟩ := h
  have hmap : zs.map f = ys.map f := forall₂_map_eq.1 (hrel.imp hf)
  rw [← hmap]
  exact hperm.map f

theorem Corresponds.of_map_perm {β : Type} {R : α → α → Prop} {f : α → β}
    (h : (xs.map f).Perm (ys.map f)) (hf : ∀ a b, f a = f b → R a b) : Corresponds R xs ys := by
  have hcomp : Relation.Comp List.Perm (List.Forall₂ fun a b => f a = b) xs (ys.map f) := by
    rw [← List.forall₂_comp_perm_eq_perm_comp_forall₂]
    exact ⟨xs.map f, List.forall₂_map_right_iff.2 (List.forall₂_same.2 fun _ _ => rfl), h⟩
  obtain ⟨zs, hperm, hrel⟩ := hcomp
  exact ⟨zs, hperm, (List.forall₂_map_right_iff.1 hrel).imp hf⟩

theorem NoCollision.mono {subjects subjects' : List HashSubject}
    (h : NoCollision hashStringOf subjects) (hsub : subjects' ⊆ subjects) :
    NoCollision hashStringOf subjects' :=
  fun a ha b hb => h a (hsub ha) b (hsub hb)

theorem canonicalLinkView_rearranged {v w : Option CfcLabelView}
    (h : RearrangedView hashStringOf v w) :
    canonicalLinkView hashStringOf v = canonicalLinkView hashStringOf w := by
  rcases h with rfl | ⟨hne, horder⟩
  · rfl
  · have hentries : linkEntries hashStringOf v = linkEntries hashStringOf w := by
      apply sortBy_eq
      apply filter_eq_of_injective Pointer.encodePointer_injective
      intro path
      have hfacts : ∀ view, (viewFacts hashStringOf view).filter (·.path = path) =
          (((entriesOf view).filter (·.path = path)).filter fun entry =>
            hasCfcLabelValues entry.label).map fun entry =>
              ⟨entry.path, canonicalLabel hashStringOf entry.label, none⟩ := by
        intro view
        rw [viewFacts, List.filter_map, List.filter_filter, List.filter_filter]
        simp only [Function.comp_def, Bool.and_comm]
      rw [hfacts, hfacts, horder]
    have hne' : linkEntries hashStringOf w ≠ [] := by
      rw [← hentries]
      exact fun hnil => hne (linkEntries_eq_nil.1 hnil)
    rw [canonicalLinkView_eq, canonicalLinkView_eq, hentries, if_neg hne', if_neg hne']

theorem canonicalizeWritePolicyInput_rearranged {a b : WritePolicyInput}
    (h : SameInput (RearrangedView hashStringOf) a b) :
    canonicalizeWritePolicyInput hashStringOf a = canonicalizeWritePolicyInput hashStringOf b := by
  cases h with
  | same => rfl
  | sources target claim h =>
    rw [canonicalizeWritePolicyInput, canonicalizeWritePolicyInput,
      sortBy_eq_of_perm h fun a _ b _ hkey => addressKey_injective hkey]
  | view target source linkSchema h =>
    rw [canonicalizeWritePolicyInput, canonicalizeWritePolicyInput, canonicalLinkView_rearranged h]

theorem canonicalDelegation_same {a b : ModuleDelegationSnapshotEntry} (h : SameDelegation a b) :
    canonicalDelegation a = canonicalDelegation b := by
  obtain ⟨aspace, aidentity, adelegated⟩ := a
  obtain ⟨bspace, bidentity, bdelegated⟩ := b
  obtain ⟨rfl, rfl, hdelegated⟩ := h
  rw [canonicalDelegation, canonicalDelegation]
  simp only [ModuleDelegationSnapshotEntry.mk.injEq, true_and]
  exact sortBy_eq_of_perm hdelegated fun a _ b _ hkey => List.head_eq_of_cons_eq hkey

/-- Records told apart by the hash that ends their key. -/
theorem sortBy_hashed {key : α → List JsString} {subject : α → HashSubject}
    (hinj : Function.Injective subject)
    (hkey : ∀ a b, key a = key b → hashStringOf (subject a) = hashStringOf (subject b))
    (h : xs.Perm ys) (hfree : NoCollision hashStringOf (xs.map subject)) :
    sortBy KeysLe key xs = sortBy KeysLe key ys := by
  apply sortBy_eq_of_perm h
  intro a ha b hb heq
  exact hinj (hfree _ (List.mem_map_of_mem ha) _ (List.mem_map_of_mem (h.mem_iff.2 hb)) (hkey a b heq))

theorem writePolicyInputKey_hash {a b : WritePolicyInput}
    (h : writePolicyInputKey hashStringOf a = writePolicyInputKey hashStringOf b) :
    hashStringOf (.policyInput a) = hashStringOf (.policyInput b) :=
  (append_last_inj (List.tail_eq_of_cons_eq h)).2

theorem root_mem_hashedFor {input : PreparedDigestInput} {root : CfcAssertedValueRoot}
    (h : root ∈ input.assertedValueRoots.getD []) : .root root ∈ hashedFor hashStringOf input := by
  simp only [hashedFor, List.mem_append]
  exact .inl (.inr (List.mem_map.2 ⟨root, h, rfl⟩))

section Rearrange

variable {x y : PreparedDigestInput}

theorem canonical_rearranged (h : Rearranged hashStringOf x y)
    (hfree : NoCollision hashStringOf (hashedFor hashStringOf x)) :
    canonicalizePreparedDigestInput hashStringOf x =
      canonicalizePreparedDigestInput hashStringOf y := by
  rw [canonicalizePreparedDigestInput, canonicalizePreparedDigestInput]
  simp only [PreparedDigestInput.mk.injEq]
  refine ⟨?reads, ?attempted, ?writes, ?log, ?traces, ?triggers, ?inputs, h.implementationIdentity,
    h.trustSnapshot, ?delegations, h.policySnapshot, ?grants, ?manifests, ?labels, ?externals,
    ?roots, ?containers⟩
  case reads => exact sortBy_eq (filter_eq_of_injective recordAddressKey_injective h.readsInOrder)
  case attempted =>
    exact sortBy_eq_of_perm h.attemptedWrites fun a _ b _ hkey => recordAddressKey_injective hkey
  case writes =>
    exact sortBy_eq_of_perm h.writes fun a _ b _ hkey => recordAddressKey_injective hkey
  case log => exact sortBy_eq h.attemptsInOrder
  case triggers =>
    exact sortBy_eq_of_perm h.triggerReads fun a _ b _ hkey => addressKey_injective hkey
  case traces =>
    exact dedupeSorted_eq_of_mem (fun _ _ hkey => hkey)
      (fun a _ b _ hkey => dereferenceTraceKey_injective hkey) h.dereferenceTraces
  case inputs =>
    have hperm : (x.writePolicyInputs.map (canonicalizeWritePolicyInput hashStringOf)).Perm
        (y.writePolicyInputs.map (canonicalizeWritePolicyInput hashStringOf)) :=
      h.inputsInOrder.map_perm fun _ _ hsame => canonicalizeWritePolicyInput_rearranged hsame
    apply sortBy_hashed (fun a b heq => HashSubject.policyInput.inj heq)
      (fun a b heq => writePolicyInputKey_hash heq) hperm
    apply hfree.mono
    intro subject hsubject
    rw [List.map_map] at hsubject
    simp only [hashedFor, List.mem_append]
    exact .inl (.inl (.inl (.inl (.inl hsubject))))
  case delegations =>
    rw [whenAny_eq_iff fun entries => by rw [sortBy_eq_nil, List.map_eq_nil_iff]]
    apply sortBy_eq
    intro key
    have hfilter : ∀ entries : List ModuleDelegationSnapshotEntry,
        (entries.map canonicalDelegation).filter (moduleDelegationKey · = key) =
          (entries.filter (moduleDelegationKey · = key)).map canonicalDelegation := by
      intro entries
      rw [List.filter_map]
      rfl
    rw [hfilter, hfilter]
    exact forall₂_map_eq.1 ((h.delegationsInOrder key).imp fun a b => canonicalDelegation_same)
  case grants =>
    rw [whenAny_eq_iff fun _ => sortBy_eq_nil]
    exact sortBy_eq_of_perm h.consultedGrants fun a _ b _ hkey => consultedGrantKey_injective hkey
  case manifests =>
    rw [whenAny_eq_iff fun _ => sortBy_eq_nil]
    apply sortBy_eq_of_perm h.consultedPolicyManifests
    intro a ha b hb hkey
    simp only [consultedPolicyManifestKey, List.cons.injEq, and_true] at hkey
    have hmem : ∀ manifest ∈ x.consultedPolicyManifests.getD [],
        HashSubject.value manifest.reference ∈ hashedFor hashStringOf x := by
      intro manifest hmanifest
      simp only [hashedFor, List.mem_append]
      exact .inl (.inl (.inl (.inl (.inr (List.mem_map.2 ⟨manifest, hmanifest, rfl⟩)))))
    have hreference := HashSubject.value.inj (hfree _ (hmem a ha) _
      (hmem b (h.consultedPolicyManifests.mem_iff.2 hb)) hkey.1)
    cases a
    cases b
    simp only [ConsultedPolicyManifest.mk.injEq]
    exact ⟨hreference, manifestStateText_injective hkey.2⟩
  case labels =>
    rw [whenAny_eq_iff fun _ => sortBy_eq_nil]
    apply sortBy_hashed (fun a b heq => HashSubject.labelObservation.inj heq)
      (fun a b heq => (append_last_inj heq).2) h.labelMetadataObservations
    apply hfree.mono
    intro subject hsubject
    simp only [hashedFor, List.mem_append]
    exact .inl (.inl (.inl (.inr hsubject)))
  case externals =>
    rw [whenAny_eq_iff fun _ => sortBy_eq_nil]
    apply sortBy_hashed (fun a b heq => HashSubject.externalObservation.inj heq)
      (fun a b heq => (append_last_inj heq).2) h.externalContentObservations
    apply hfree.mono
    intro subject hsubject
    simp only [hashedFor, List.mem_append]
    exact .inl (.inl (.inr hsubject))
  case roots =>
    rw [whenAny_eq_iff fun roots => by rw [canonicalRoots, dedupeSorted_eq_nil, sortBy_eq_nil]]
    apply dedupeSorted_eq_of_mem (fun a b heq => (append_last_inj heq).2) _ h.assertedValueRoots
    intro a ha b hb heq
    exact HashSubject.root.inj
      (hfree _ (root_mem_hashedFor ha) _ (root_mem_hashedFor hb) heq)
  case containers =>
    rw [whenAny_eq_iff fun containers => by rw [dedupeSorted_eq_nil, sortBy_eq_nil]]
    exact dedupeSorted_eq_of_mem (fun _ _ hkey => hkey)
      (fun a _ b _ hkey => addressKey_injective hkey) h.structureContainers

end Rearrange

theorem perm_of_sortBy_eq {κ : Type} {le : κ → κ → Prop} [DecidableRel le] {key : α → κ}
    (h : sortBy le key xs = sortBy le key ys) : xs.Perm ys := by
  have hys : (sortBy le key ys).Perm ys := sortBy_perm ys
  rw [← h] at hys
  exact (sortBy_perm xs).symm.trans hys

theorem sameView_of_canonical {v w : Option CfcLabelView}
    (h : canonicalLinkView hashStringOf v = canonicalLinkView hashStringOf w) :
    SameView hashStringOf v w := by
  -- a view with no label in it is its own canonical form, and that of no view with one
  have hmixed : ∀ {v w : Option CfcLabelView}, linkEntries hashStringOf v = [] →
      linkEntries hashStringOf w ≠ [] →
      canonicalLinkView hashStringOf v ≠ canonicalLinkView hashStringOf w := by
    intro v w hv hw heq
    rw [canonicalLinkView_eq, canonicalLinkView_eq, if_pos hv, if_neg hw] at heq
    rw [heq, linkEntries_linkEntries] at hv
    exact hw hv
  by_cases hv : linkEntries hashStringOf v = []
  · by_cases hw : linkEntries hashStringOf w = []
    · rw [canonicalLinkView_eq, canonicalLinkView_eq, if_pos hv, if_pos hw] at h
      exact .inl h
    · exact absurd h (hmixed hv hw)
  · by_cases hw : linkEntries hashStringOf w = []
    · exact absurd h.symm (hmixed hw hv)
    · rw [canonicalLinkView_eq, canonicalLinkView_eq, if_neg hv, if_neg hw] at h
      have hentries : linkEntries hashStringOf v = linkEntries hashStringOf w :=
        CfcLabelView.mk.inj (Option.some.inj h)
      exact .inr ⟨fun hnil => hv (linkEntries_eq_nil.2 hnil), perm_of_sortBy_eq hentries⟩

theorem SameInput.of_eq {View : Option CfcLabelView → Option CfcLabelView → Prop}
    {a b : WritePolicyInput} (h : a = b) : SameInput View a b := h ▸ .same a

theorem sameInput_of_canonical {a b : WritePolicyInput}
    (h : canonicalizeWritePolicyInput hashStringOf a = canonicalizeWritePolicyInput hashStringOf b) :
    SameInput (SameView hashStringOf) a b := by
  cases a with
  | structuralProvenance target claim sources =>
    cases b with
    | structuralProvenance target' claim' sources' =>
      simp only [canonicalizeWritePolicyInput, WritePolicyInput.structuralProvenance.injEq] at h
      obtain ⟨rfl, rfl, hsources⟩ := h
      exact .sources _ _ (perm_of_sortBy_eq hsources)
    | _ => cases h
  | linkWrite target source linkSchema v =>
    cases b with
    | linkWrite target' source' linkSchema' w =>
      simp only [canonicalizeWritePolicyInput, WritePolicyInput.linkWrite.injEq] at h
      obtain ⟨rfl, rfl, rfl, hview⟩ := h
      exact .view _ _ _ (sameView_of_canonical hview)
    | _ => cases h
  | _ =>
    cases b with
    | structuralProvenance => cases h
    | linkWrite => cases h
    | _ => exact .of_eq h

theorem sameDelegation_of_canonical {a b : ModuleDelegationSnapshotEntry}
    (h : canonicalDelegation a = canonicalDelegation b) : SameDelegation a b := by
  simp only [canonicalDelegation, ModuleDelegationSnapshotEntry.mk.injEq] at h
  exact ⟨h.1, h.2.1, perm_of_sortBy_eq h.2.2⟩

/-- A set's canonical list has its members. -/
theorem mem_iff_of_dedupeSorted_eq {κ τ : Type} {le : κ → κ → Prop} [DecidableRel le]
    [DecidableEq τ] {key : α → κ} {tag : α → τ}
    (hinj : ∀ a ∈ xs ++ ys, ∀ b ∈ xs ++ ys, tag a = tag b → a = b)
    (h : dedupeSorted tag (sortBy le key xs) = dedupeSorted tag (sortBy le key ys)) (a : α) :
    a ∈ xs ↔ a ∈ ys := by
  have hmem : ∀ zs, zs ⊆ xs ++ ys → (a ∈ dedupeSorted tag (sortBy le key zs) ↔ a ∈ zs) := by
    intro zs hzs
    rw [mem_dedupeSorted, mem_sortBy]
    intro b hb c hc
    exact hinj b (hzs (mem_sortBy.1 hb)) c (hzs (mem_sortBy.1 hc))
  rw [← hmem xs (List.subset_append_left xs ys), ← hmem ys (List.subset_append_right xs ys), h]

theorem sameFacts_of_canonical {x y : PreparedDigestInput}
    (hfree : NoCollision hashStringOf (hashedFor hashStringOf x ++ hashedFor hashStringOf y))
    (h : canonicalizePreparedDigestInput hashStringOf x =
      canonicalizePreparedDigestInput hashStringOf y) : SameFacts hashStringOf x y := by
  rw [canonicalizePreparedDigestInput, canonicalizePreparedDigestInput] at h
  simp only [PreparedDigestInput.mk.injEq] at h
  obtain ⟨hreads, hattempted, hwrites, hlog, htraces, htriggers, hinputs, hidentity, htrust,
    hdelegations, hpolicy, hgrants, hmanifests, hlabels, hexternals, hroots, hcontainers⟩ := h
  rw [whenAny_eq_iff fun _ => sortBy_eq_nil] at hgrants hmanifests hlabels hexternals
  rw [whenAny_eq_iff fun entries => by rw [sortBy_eq_nil, List.map_eq_nil_iff]] at hdelegations
  rw [whenAny_eq_iff fun roots => by rw [canonicalRoots, dedupeSorted_eq_nil, sortBy_eq_nil]]
    at hroots
  rw [whenAny_eq_iff fun containers => by rw [dedupeSorted_eq_nil, sortBy_eq_nil]] at hcontainers
  constructor
  case consumedReads => exact perm_of_sortBy_eq hreads
  case attemptedWrites => exact perm_of_sortBy_eq hattempted
  case writes => exact perm_of_sortBy_eq hwrites
  case writeAttemptLog => exact perm_of_sortBy_eq hlog
  case triggerReads => exact perm_of_sortBy_eq htriggers
  case dereferenceTraces =>
    exact mem_iff_of_dedupeSorted_eq (fun a _ b _ heq => dereferenceTraceKey_injective heq) htraces
  case writePolicyInputs =>
    have hperm : (x.writePolicyInputs.map (canonicalizeWritePolicyInput hashStringOf)).Perm
        (y.writePolicyInputs.map (canonicalizeWritePolicyInput hashStringOf)) :=
      perm_of_sortBy_eq hinputs
    exact Corresponds.of_map_perm hperm fun _ _ heq => sameInput_of_canonical heq
  case implementationIdentity => exact hidentity
  case trustSnapshot => exact htrust
  case moduleDelegations =>
    have hperm : ((x.moduleDelegations.getD []).map canonicalDelegation).Perm
        ((y.moduleDelegations.getD []).map canonicalDelegation) := perm_of_sortBy_eq hdelegations
    exact Corresponds.of_map_perm hperm fun _ _ heq => sameDelegation_of_canonical heq
  case policySnapshot => exact hpolicy
  case consultedGrants => exact perm_of_sortBy_eq hgrants
  case consultedPolicyManifests => exact perm_of_sortBy_eq hmanifests
  case labelMetadataObservations => exact perm_of_sortBy_eq hlabels
  case externalContentObservations => exact perm_of_sortBy_eq hexternals
  case assertedValueRoots =>
    apply mem_iff_of_dedupeSorted_eq _ hroots
    intro a ha b hb heq
    have hmem : ∀ root ∈ x.assertedValueRoots.getD [] ++ y.assertedValueRoots.getD [],
        HashSubject.root root ∈ hashedFor hashStringOf x ++ hashedFor hashStringOf y := by
      intro root hroot
      rcases List.mem_append.1 hroot with hroot | hroot
      · exact List.mem_append_left _ (root_mem_hashedFor hroot)
      · exact List.mem_append_right _ (root_mem_hashedFor hroot)
    exact HashSubject.root.inj (hfree _ (hmem a ha) _ (hmem b hb) heq)
  case structureContainers =>
    exact mem_iff_of_dedupeSorted_eq (fun a _ b _ heq => addressKey_injective heq) hcontainers

/-- The canonical form is its own. Where no two hashed values collide, inputs that are
rearrangements of one another have one digest, and inputs with one digest record the same facts. -/
theorem preparedDigest_of_facts (hashStringOf : HashSubject → JsString) :
    (∀ input, canonicalizePreparedDigestInput hashStringOf
        (canonicalizePreparedDigestInput hashStringOf input) =
      canonicalizePreparedDigestInput hashStringOf input) ∧
    ∀ x y, NoCollision hashStringOf (hashedFor hashStringOf x ++ hashedFor hashStringOf y) →
      (Rearranged hashStringOf x y →
        preparedDigestFor hashStringOf x = preparedDigestFor hashStringOf y) ∧
      (¬SameFacts hashStringOf x y →
        preparedDigestFor hashStringOf x ≠ preparedDigestFor hashStringOf y) := by
  constructor
  case left => exact canonicalizePreparedDigestInput_idem
  case right =>
    intro x y hfree
    constructor
    case left =>
      intro h
      rw [preparedDigestFor, preparedDigestFor,
        canonical_rearranged h (hfree.mono (List.subset_append_left _ _))]
    case right =>
      intro hdiffer hdigest
      apply hdiffer
      apply sameFacts_of_canonical hfree
      have hmem : ∀ input, HashSubject.prepared (canonicalizePreparedDigestInput hashStringOf input) ∈
          hashedFor hashStringOf input := by
        intro input
        exact List.mem_append_right _ (List.mem_singleton_self _)
      exact HashSubject.prepared.inj (hfree _ (List.mem_append_left _ (hmem x)) _
        (List.mem_append_right _ (hmem y)) hdigest)

/-- An input that records writes alone. -/
def writesAlone (writes : List CfcRecordAddress) : PreparedDigestInput where
  consumedReads := []
  attemptedWrites := []
  writes := writes
  writeAttemptLog := []
  dereferenceTraces := []
  triggerReads := []
  writePolicyInputs := []
  implementationIdentity := none
  trustSnapshot := none
  moduleDelegations := none
  policySnapshot := none
  consultedGrants := none
  consultedPolicyManifests := none
  labelMetadataObservations := none
  externalContentObservations := none
  assertedValueRoots := none
  structureContainers := none

/-- A hash that tells one prepared write from several. -/
def countingHash : HashSubject → JsString
  | .prepared input => if input.writes.length = 1 then "one" else "several"
  | _ => ""

def titleWrite : CfcRecordAddress := ⟨"did:key:space", "of:note", .space, .payload ["title"]⟩

def bodyWrite : CfcRecordAddress := ⟨"did:key:space", "of:note", .space, .payload ["body"]⟩

theorem preparedDigest_of_facts_writes :
    preparedDigestFor countingHash (writesAlone [titleWrite, bodyWrite]) =
        preparedDigestFor countingHash (writesAlone [bodyWrite, titleWrite]) ∧
      preparedDigestFor countingHash (writesAlone [titleWrite, bodyWrite]) ≠
        preparedDigestFor countingHash (writesAlone [titleWrite]) := by
  have hfree : NoCollision countingHash
      (hashedFor countingHash (writesAlone [titleWrite, bodyWrite]) ++
        hashedFor countingHash (writesAlone [bodyWrite, titleWrite])) := by
    unfold NoCollision
    decide +kernel
  have hfree' : NoCollision countingHash
      (hashedFor countingHash (writesAlone [titleWrite, bodyWrite]) ++
        hashedFor countingHash (writesAlone [titleWrite])) := by
    unfold NoCollision
    decide +kernel
  constructor
  · apply ((preparedDigest_of_facts countingHash).2 _ _ hfree).1
    constructor
    case toSameFacts =>
      constructor
      case writes => exact List.Perm.swap _ _ _
      case writePolicyInputs => exact ⟨[], List.Perm.refl _, List.Forall₂.nil⟩
      case moduleDelegations => exact ⟨[], List.Perm.refl _, List.Forall₂.nil⟩
      all_goals simp [writesAlone]
    case inputsInOrder => exact ⟨[], List.Perm.refl _, List.Forall₂.nil⟩
    case delegationsInOrder => exact fun _ => List.Forall₂.nil
    all_goals simp [writesAlone]
  · apply ((preparedDigest_of_facts countingHash).2 _ _ hfree').2
    intro h
    exact absurd h.writes.length_eq (by decide)

/-- A hash that tells one prepared input from the others. -/
def tellingHash (input : PreparedDigestInput) : HashSubject → JsString
  | .prepared other => if other = canonicalizePreparedDigestInput (fun _ => "") input then "one"
      else "other"
  | _ => ""

def readTwice (first second : Option ℕ) : PreparedDigestInput :=
  { writesAlone [] with consumedReads := [⟨titleWrite, none, none, first⟩,
      ⟨titleWrite, none, none, second⟩] }

def attemptedTwice (first second : JsString) : PreparedDigestInput :=
  { writesAlone [] with writeAttemptLog := [first, second].map fun key =>
      ⟨"did:key:space", "of:note", .space, [key], 0⟩ }

def delegatedTwice (first second : JsString) : PreparedDigestInput :=
  { writesAlone [] with moduleDelegations := some ([first, second].map fun delegated =>
      ⟨"did:key:space", "module", [delegated]⟩) }

/-- A link written with a view. -/
def linkAlone (entries : List CfcLabelViewEntry) : PreparedDigestInput :=
  let note : CfcAddress := ⟨"did:key:space", "of:note", .space, []⟩
  { writesAlone [] with writePolicyInputs := [.linkWrite note note none (some ⟨entries⟩)] }

def labelOf (atom : JsString) : IFCLabel := ⟨some [.string atom], none⟩

/-- A record that is made twice, records in another order that their list does not tell apart, and
entries of a view in which none holds a label. -/
def tiedInputs : List (PreparedDigestInput × PreparedDigestInput) :=
  [(writesAlone [titleWrite], writesAlone [titleWrite, titleWrite]),
    (readTwice (some 0) (some 1), readTwice (some 1) (some 0)),
    (attemptedTwice "a" "b", attemptedTwice "b" "a"),
    (delegatedTwice "a" "b", delegatedTwice "b" "a"),
    (linkAlone [⟨[], labelOf "a", none⟩, ⟨[], labelOf "b", none⟩],
      linkAlone [⟨[], labelOf "b", none⟩, ⟨[], labelOf "a", none⟩]),
    (linkAlone [⟨["a"], ⟨none, none⟩, none⟩, ⟨["b"], ⟨none, none⟩, none⟩],
      linkAlone [⟨["b"], ⟨none, none⟩, none⟩, ⟨["a"], ⟨none, none⟩, none⟩])]

/-- What is tied counts as it was recorded, and the class of a label in a link's view does not
count. -/
theorem prepared_ties_count :
    (∀ pair ∈ tiedInputs, preparedDigestFor (tellingHash pair.1) pair.1 ≠
      preparedDigestFor (tellingHash pair.1) pair.2) ∧
    (let shown := linkAlone [⟨[], labelOf "a", none⟩]
      let classed := linkAlone [⟨[], labelOf "a", some .shape⟩]
      shown ≠ classed ∧ NoCollision (tellingHash shown) (hashedFor (tellingHash shown) shown ++
        hashedFor (tellingHash shown) classed) ∧
      preparedDigestFor (tellingHash shown) shown =
        preparedDigestFor (tellingHash shown) classed) := by
  unfold NoCollision
  decide +kernel

end Cfc
