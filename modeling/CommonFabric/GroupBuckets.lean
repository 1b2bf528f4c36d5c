import CommonFabric.UniqueBuckets

/-!
# Buckets with a group

In group mode a bucket publishes the elements of all its occurrences in their order. Where the
cached order goes with the published group both are edited at the place a binary search finds,
and otherwise both are built from the members.
-/

namespace CollectionIndex

open OrderedEntries Utf8

variable {Link : Type} {hashStringOf : JsString → JsString} {Occurs : JsString → Prop}
  {entries : List (JsString × Link)} {s : CollectionIndex Link} {bucket occurrence : JsString}
  {element : Option Link}

/-- What stands before the place the search ends at precedes the occurrence, and nothing from
there on does. The loop keeps this of `low` and `high`. -/
theorem lowerBound_spec (occurrence : JsString) {order : List JsString} (hsorted : order.Pairwise Precedes)
    {low high : ℕ} (hle : low ≤ high) (hhigh : high ≤ order.length)
    (hbefore : ∀ i x, i < low → order[i]? = some x → Precedes x occurrence)
    (hnot : ∀ i x, high ≤ i → order[i]? = some x → ¬Precedes x occurrence) :
    ∀ i x, order[i]? = some x →
      (i < lowerBound order occurrence low high ↔ Precedes x occurrence) := by
  have hpair : ∀ (i j : ℕ) (x y : JsString), i < j → order[i]? = some x → order[j]? = some y → Precedes x y := by
    intro i j x y hij hx hy
    obtain ⟨hi, rfl⟩ := List.getElem?_eq_some_iff.1 hx
    obtain ⟨hj, rfl⟩ := List.getElem?_eq_some_iff.1 hy
    exact List.pairwise_iff_getElem.1 hsorted i j hi hj hij
  fun_induction lowerBound order occurrence low high with
  | case1 low high hlt middle hprec ih =>
    have hmid : middle < high := by omega
    have hget : order[middle]? = some (order.getD middle "") := by
      simp [List.getD_eq_getElem?_getD, List.getElem?_eq_getElem (Nat.lt_of_lt_of_le hmid hhigh)]
    apply ih (by omega) hhigh _ hnot
    intro i x hi hx
    rcases Nat.lt_or_ge i middle with h | h
    · exact trans_of Precedes (hpair i middle x _ h hx hget) hprec
    · obtain rfl : i = middle := by omega
      rw [hget] at hx
      exact Option.some.inj hx ▸ hprec
  | case2 low high hlt middle hprec ih =>
    have hmid : middle < high := by omega
    have hget : order[middle]? = some (order.getD middle "") := by
      simp [List.getD_eq_getElem?_getD, List.getElem?_eq_getElem (Nat.lt_of_lt_of_le hmid hhigh)]
    apply ih (by omega) (by omega) hbefore
    intro i x hi hx hxocc
    rcases Nat.lt_or_ge middle i with h | h
    · exact hprec (trans_of Precedes (hpair middle i _ x h hget hx) hxocc)
    · obtain rfl : i = middle := by omega
      rw [hget] at hx
      exact hprec (Option.some.inj hx ▸ hxocc)
  | case3 low high hlt =>
    intro i x hx
    obtain rfl : low = high := by omega
    exact ⟨fun h => hbefore i x h hx, fun h => by
      by_contra hge
      exact hnot i x (by omega) hx h⟩

section Search

variable (hordered : Ordered Precedes entries)
include hordered

theorem lowerBound_splits (occurrence : JsString) :
    (∀ x ∈ entries.take (lowerBound (entries.map (·.1)) occurrence 0
      (entries.map (·.1)).length), Precedes x.1 occurrence) ∧
    ∀ x ∈ entries.drop (lowerBound (entries.map (·.1)) occurrence 0
      (entries.map (·.1)).length), ¬Precedes x.1 occurrence := by
  have hspec := lowerBound_spec occurrence
    (List.pairwise_map.2 hordered) (Nat.zero_le _) (Nat.le_refl _) (by simp)
    (fun i x hi hx => by simp [List.getElem?_eq_none hi] at hx)
  generalize lowerBound (entries.map (·.1)) occurrence 0 (entries.map (·.1)).length = place at hspec ⊢
  constructor
  · intro x hx
    obtain ⟨i, hi, rfl⟩ := List.mem_take_iff_getElem.1 hx
    have hlen : i < place ∧ i < entries.length := by omega
    exact (hspec i _ (by simp [List.getElem?_eq_getElem hlen.2])).1 hlen.1
  · intro x hx hprec
    obtain ⟨i, hi, rfl⟩ := List.mem_drop_iff_getElem.1 hx
    have := (hspec (place + i) _ (by rw [List.getElem?_map, List.getElem?_eq_getElem (by omega)]; rfl)).2
      hprec
    omega

end Search

/-- Building anew gives the entries the members hold. -/
theorem rebuilt_eq (hordered : Ordered Precedes entries)
    (h : Holds hashStringOf (s.membersOf bucket) entries) :
    (sortById IndexMember.occurrence (s.membersOf bucket).values).map
      (fun member => (member.occurrence, member.element)) = entries := by
  have hperm := List.perm_insertionSort
    (fun a b : IndexMember Link => le a.occurrence b.occurrence) (s.membersOf bucket).values
  have hnodup : ((s.membersOf bucket).values.map IndexMember.occurrence).Nodup := by
    have hkeys : (s.membersOf bucket).entries.map (·.1) =
        ((s.membersOf bucket).values.map IndexMember.occurrence).map hashStringOf := by
      rw [JsMap.values, List.map_map, List.map_map]
      refine List.map_congr_left fun e he => ?_
      obtain ⟨x, _, rfl⟩ := (h e).1 he
      rfl
    exact List.Nodup.of_map hashStringOf (hkeys ▸ (s.membersOf bucket).nodup)
  apply eq_of_mem_iff (r := Precedes) _ hordered
  · intro x
    rw [List.mem_map]
    constructor
    · rintro ⟨member, hmember, rfl⟩
      obtain ⟨e, he, rfl⟩ := List.mem_map.1 (hperm.mem_iff.1 hmember)
      obtain ⟨y, hy, rfl⟩ := (h e).1 he
      exact hy
    · intro hx
      exact ⟨⟨x.1, x.2⟩, hperm.mem_iff.2 (List.mem_map.2 ⟨_, (h _).2 ⟨x, hx, rfl⟩, rfl⟩), rfl⟩
  · refine List.pairwise_map.2 (List.Pairwise.imp₂ ?_
      (List.pairwise_insertionSort (fun a b : IndexMember Link => le a.occurrence b.occurrence)
        (s.membersOf bucket).values)
      (List.pairwise_map.1 ((hperm.map IndexMember.occurrence).nodup_iff.2 hnodup)))
    intro a b hle hne
    exact lt_of_le_of_ne hle fun h0 => hne (utf8Compare_lawful.eq _ _ h0)

/-- Editing in place at the place the search finds. -/
theorem edited_eq (hordered : Ordered Precedes entries) (occurrence : JsString)
    (element : Option Link) :
    let order := entries.map (·.1)
    let group := entries.map (·.2)
    let low := lowerBound order occurrence 0 order.length
    let present := decide (order[low]? = some occurrence)
    (match element with
      | some element =>
        (splice order low present.toNat [occurrence], splice group low present.toNat [element])
      | none => if present then (splice order low 1 [], splice group low 1 []) else (order, group)) =
      ((changed occurrence element entries).map (·.1),
        (changed occurrence element entries).map (·.2)) := by
  intro order group low present
  obtain ⟨hbefore, hnot⟩ := lowerBound_splits hordered occurrence
  cases element with
  | some element =>
    rw [changed, put_eq_splice hordered hbefore hnot]
    simp [splice, order, group, low, present, List.map_take, List.map_drop]
  | none =>
    rw [changed, remove_eq_splice hordered hbefore hnot]
    cases hpresent : present with
    | true =>
      have htrue : decide ((entries.map (·.1))[low]? = some occurrence) = true := hpresent
      simp only [if_true, splice, List.append_nil]
      rw [htrue]
      simp [order, group, low, List.map_take, List.map_drop]
    | false =>
      have hfalse : decide ((entries.map (·.1))[low]? = some occurrence) = false := hpresent
      rw [hfalse]
      simp [order, group]

section

variable (h : Shows hashStringOf Occurs .group entries s bucket)
  (hinj : ∀ a b, Occurs a → Occurs b → hashStringOf a = hashStringOf b → a = b)
  (hocc : Occurs occurrence)
include h hinj hocc

/-- Either way the bucket is that of the entries after the change. -/
theorem updatedGroup_eq (element : Option Link) :
    (s.changedMembers bucket (hashStringOf occurrence)
      (element.map fun element => ⟨occurrence, element⟩)).updatedGroup bucket
        ((s.orders.getD .empty).get bucket) (s.buckets.get bucket) occurrence
        (element.map fun element => ⟨occurrence, element⟩) =
      ((changed occurrence element entries).map (·.1),
        (changed occurrence element entries).map (·.2)) := by
  have hrebuilt := rebuilt_eq (ordered_changed h.ordered occurrence element)
    (holds_changedMembers h hinj hocc element)
  have hrebuilt' :
      let sorted := sortById IndexMember.occurrence ((s.changedMembers bucket
        (hashStringOf occurrence)
        (element.map fun element => ⟨occurrence, element⟩)).membersOf bucket).values
      (sorted.map (·.occurrence), sorted.map (·.element)) =
        ((changed occurrence element entries).map (·.1),
          (changed occurrence element entries).map (·.2)) := by
    rw [← hrebuilt]
    simp
  unfold updatedGroup
  cases horder : (s.orders.getD .empty).get bucket with
  | none => exact hrebuilt'
  | some order =>
    rw [h.order rfl order horder, h.buckets, publishedOf]
    cases hhead : entries.head? with
    | none => exact hrebuilt'
    | some first =>
      have hedit := edited_eq h.ordered occurrence element
      have hlength : (entries.map (·.1)).length = (entries.map (·.2)).length := by simp
      simp only [Option.map_some]
      rw [if_pos hlength]
      cases element with
      | some element => exact hedit
      | none => exact hedit

/-- `updateGroupBucket` puts the occurrence into its bucket or takes it from there. -/
theorem updateGroupBucket_shows (element : Option Link) :
    ∃ s', s.updateGroupBucket bucket (hashStringOf occurrence) occurrence
        (element.map fun element => ⟨occurrence, element⟩) =
          (s', !(changed occurrence element entries).isEmpty) ∧
      Shows hashStringOf Occurs .group (changed occurrence element entries) s' bucket ∧
      Spares s s' bucket ∧ s'.occupied = s.occupied := by
  have hgroup := updatedGroup_eq h hinj hocc element
  have hholds := holds_changedMembers h hinj hocc element
  have hordered := ordered_changed h.ordered occurrence element
  have hoccurs := occurs_changed h hocc element
  have hother {other : JsString} (hne : other ≠ bucket) := membersOf_changedMembers s bucket
    (hashStringOf occurrence) (element.map fun element => ⟨occurrence, element⟩) hne
  obtain ⟨hbuckets, hwinners, horders, hoccupied, hassignments⟩ := changedMembers_keeps s bucket
    (hashStringOf occurrence) (element.map fun element => ⟨occurrence, element⟩)
  unfold updateGroupBucket
  dsimp only
  rw [hgroup]
  generalize s.changedMembers bucket (hashStringOf occurrence)
    (element.map fun element => ⟨occurrence, element⟩) = s₁ at *
  dsimp only
  rw [List.length_map]
  cases hchanged : changed occurrence element entries with
  | nil =>
    refine ⟨_, by simp only [List.length_nil, if_true]; rfl, ?_, ?_, ?_⟩
    · constructor
      · exact List.Pairwise.nil
      · simp
      · intro e
        simp [membersOf, JsMap.empty]
      · simp [publishedOf]
      · intro hmode
        cases hmode
      · intro _ order horder
        simp at horder
    · constructor
      · intro other hne
        simpa [membersOf, JsMap.get_delete_other _ (Ne.symm hne)] using hother hne
      · intro other hne
        simp [JsMap.get_delete_other _ (Ne.symm hne), hbuckets]
      · intro other _
        simp [hwinners]
      · intro other hne
        simp [JsMap.get_delete_other _ (Ne.symm hne), horders]
      · simp [hoccupied]
      · exact hassignments
    · exact hoccupied
  | cons x rest =>
    rw [hchanged] at hholds hordered hoccurs
    refine ⟨_, by rw [if_neg (by simp)]; rfl, ?_, ?_, ?_⟩
    · constructor
      · exact hordered
      · exact hoccurs
      · exact hholds
      · simp [publishedOf]
      · intro hmode
        cases hmode
      · intro _ order horder
        simpa [eq_comm] using horder
    · constructor
      · exact fun other hne => hother hne
      · intro other hne
        simp [JsMap.get_set_other _ (Ne.symm hne), hbuckets]
      · intro other _
        simp [hwinners]
      · intro other hne
        simp [JsMap.get_set_other _ (Ne.symm hne), horders]
      · simp [hoccupied]
      · exact hassignments
    · exact hoccupied

end

end CollectionIndex
