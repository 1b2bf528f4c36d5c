import CommonFabric.IndexBuckets

/-!
# Buckets with a winner

In key mode a bucket publishes the element of its least occurrence. The winner that the cache
holds is that occurrence, and where the cache holds none the members give it.
-/

namespace CollectionIndex

open OrderedEntries Utf8

variable {Link : Type} {hashStringOf : JsString → JsString} {Occurs : JsString → Prop}
  {entries : List (JsString × Link)} {s : CollectionIndex Link} {bucket occurrence : JsString}
  {element : Option Link}

/-- The hash of the least occurrence. -/
abbrev winnerOf (hashStringOf : JsString → JsString) (entries : List (JsString × Link)) :
    Option JsString := entries.head?.map fun x => hashStringOf x.1

theorem currentWinner_eq (h : Shows hashStringOf Occurs .key entries s bucket) :
    s.currentWinner bucket (!entries.isEmpty) = winnerOf hashStringOf entries := by
  rw [currentWinner]
  cases hget : (s.winners.getD .empty).get bucket with
  | some winner => exact (h.winner rfl winner hget).symm
  | none =>
    cases entries with
    | nil => rfl
    | cons x entries => exact firstMemberId_eq h.ordered h.members

theorem membersOf_changedMembers (s : CollectionIndex Link) (bucket memberId : JsString)
    (member : Option (IndexMember Link)) {other : JsString} (hne : other ≠ bucket) :
    (s.changedMembers bucket memberId member).membersOf other = s.membersOf other := by
  cases member with
  | some entry => simp [changedMembers, membersOf_setMember, Ne.symm hne]
  | none => simp [changedMembers, membersOf_deleteMember, Ne.symm hne]

theorem changedMembers_keeps (s : CollectionIndex Link) (bucket memberId : JsString)
    (member : Option (IndexMember Link)) :
    (s.changedMembers bucket memberId member).buckets = s.buckets ∧
      (s.changedMembers bucket memberId member).winners = s.winners ∧
      (s.changedMembers bucket memberId member).orders = s.orders ∧
      (s.changedMembers bucket memberId member).occupied = s.occupied ∧
      (s.changedMembers bucket memberId member).assignments = s.assignments := by
  cases member with
  | some entry => exact ⟨rfl, rfl, rfl, rfl, rfl⟩
  | none =>
    rw [changedMembers, deleteMember]
    split <;> exact ⟨rfl, rfl, rfl, rfl, rfl⟩

section

variable {mode : IndexMode} (h : Shows hashStringOf Occurs mode entries s bucket)
  (hinj : ∀ a b, Occurs a → Occurs b → hashStringOf a = hashStringOf b → a = b)
  (hocc : Occurs occurrence)
include h hinj hocc

omit hinj in
theorem occurs_changed (element : Option Link) :
    ∀ x ∈ changed occurrence element entries, Occurs x.1 := by
  intro x hx
  rcases mem_changed.1 hx with ⟨rfl, _⟩ | ⟨hx, _⟩
  · exact hocc
  · exact h.occurs x hx

theorem holds_changedMembers (element : Option Link) : Holds hashStringOf
    ((s.changedMembers bucket (hashStringOf occurrence)
      (element.map fun element => ⟨occurrence, element⟩)).membersOf bucket)
    (changed occurrence element entries) := by
  cases element with
  | some element =>
    simp only [Option.map_some, changedMembers, membersOf_setMember, if_true]
    exact h.holds_set hinj hocc element
  | none =>
    simp only [Option.map_none, changedMembers, membersOf_deleteMember, if_true]
    exact h.holds_delete hinj hocc

/-- The next winner is the least occurrence of those there are now. -/
theorem nextWinner_eq (element : Option Link) :
    (s.changedMembers bucket (hashStringOf occurrence)
      (element.map fun element => ⟨occurrence, element⟩)).nextWinner bucket
        (hashStringOf occurrence) (element.map fun element => ⟨occurrence, element⟩)
        (winnerOf hashStringOf entries) =
      some (winnerOf hashStringOf (changed occurrence element entries)) := by
  have hholds := holds_changedMembers h hinj hocc element
  cases element with
  | some element =>
    simp only [Option.map_some, nextWinner, changedMembers, winnerOf, changed,
      h.ordered.head?_put] at hholds ⊢
    cases hhead : entries.head? with
    | none => simp [takes]
    | some x =>
      have hx := (h.ordered.head?_eq_iff.1 hhead).1
      simp only [Option.map_some, takes]
      by_cases heq : hashStringOf x.1 = hashStringOf occurrence
      · have hirrefl : ¬Precedes x.1 occurrence :=
          hinj _ _ (h.occurs x hx) hocc heq ▸ irrefl_of Precedes _
        simp [heq, hirrefl]
      · have hne : x.1 ≠ occurrence := fun h' => heq (h' ▸ rfl)
        have hget : ((s.setMember bucket (hashStringOf occurrence)
            ⟨occurrence, element⟩).membersOf bucket).get (hashStringOf x.1) =
            some ⟨x.1, x.2⟩ :=
          JsMap.get_of_mem ((hholds _).2 ⟨x, mem_put.2 (.inr ⟨hx, hne⟩), rfl⟩)
        rw [if_neg heq, hget]
        by_cases hlt : Precedes x.1 occurrence
        · have hnot : ¬utf8Compare occurrence x.1 < 0 := not_symm (r := Precedes) hlt
          simp [hlt, hnot]
        · have hgt : utf8Compare occurrence x.1 < 0 := by
            rcases (ne_iff_before (r := Precedes)).1 hne with h' | h'
            · exact absurd h' hlt
            · exact h'
          simp [hlt, hgt]
  | none =>
    simp only [Option.map_none, nextWinner, changedMembers, Option.some.injEq] at hholds ⊢
    split
    · exact firstMemberId_eq (ordered_changed h.ordered _ none) hholds
    · rename_i hne
      cases hhead : entries.head? with
      | none => simp [winnerOf, changed, remove, List.head?_eq_none_iff.1 hhead]
      | some x =>
        obtain ⟨hx, hleast⟩ := h.ordered.head?_eq_iff.1 hhead
        have hxne : x.1 ≠ occurrence := fun heq => hne (by simp [winnerOf, hhead, heq])
        have : (changed occurrence none entries).head? = some x :=
          (ordered_changed h.ordered _ none).head?_eq_iff.2
            ⟨mem_remove.2 ⟨hx, hxne⟩, fun y hy => hleast y (mem_remove.1 hy).1⟩
        rw [winnerOf, winnerOf, this, hhead]

end

/-- The published bucket is the winner's element, whether it is published again or was so
before. -/
theorem publishWinner_eq {x : JsString × Link} (memberId : JsString)
    (previousWinner : Option JsString) (member : Option (IndexMember Link))
    (hget : (s.membersOf bucket).get (hashStringOf x.1) = some ⟨x.1, x.2⟩)
    (hmember : ∀ entry, member = some entry → hashStringOf x.1 = memberId → entry.element = x.2)
    (hsame : some (hashStringOf x.1) = previousWinner →
      (member.isSome = true → hashStringOf x.1 ≠ memberId) →
        s.buckets.get bucket = some (.single x.2)) :
    ∃ buckets : JsMap JsString (PublishedBucket Link),
      s.publishWinner bucket memberId (hashStringOf x.1) previousWinner member =
        some { s with
          winners := some ((s.winners.getD .empty).set bucket (hashStringOf x.1))
          buckets := buckets } ∧
      buckets.get bucket = some (.single x.2) ∧
      ∀ other ≠ bucket, buckets.get other = s.buckets.get other := by
  rw [publishWinner]
  dsimp only
  split
  · refine ⟨s.buckets.set bucket (.single x.2), ?_, JsMap.get_set_self _ _ _,
      fun other hne => JsMap.get_set_other _ (Ne.symm hne) _⟩
    cases member with
    | none => simp [membersOf] at hget ⊢; simp [hget]
    | some entry =>
      by_cases hid : hashStringOf x.1 = memberId
      · simp [hid, hmember entry rfl hid]
      · simp only [membersOf] at hget
        simp [hid, membersOf, hget]
  · rename_i hnot
    simp only [Bool.or_eq_true, not_or, decide_eq_true_eq, not_not, Bool.not_eq_true,
      Bool.and_eq_false_iff, decide_eq_false_iff_not] at hnot
    refine ⟨s.buckets, rfl, hsame hnot.1.1 fun hsome => ?_, fun _ _ => rfl⟩
    rcases hnot.1.2 with h | h
    · rw [hsome] at h
      cases h
    · exact h

/-- `updateUniqueBucket` puts the occurrence into its bucket or takes it from there. -/
theorem updateUniqueBucket_shows (h : Shows hashStringOf Occurs .key entries s bucket)
    (hinj : ∀ a b, Occurs a → Occurs b → hashStringOf a = hashStringOf b → a = b)
    (hocc : Occurs occurrence) (element : Option Link) :
    ∃ s', s.updateUniqueBucket bucket (hashStringOf occurrence)
        (element.map fun element => ⟨occurrence, element⟩) (!entries.isEmpty) =
          some (s', !(changed occurrence element entries).isEmpty) ∧
      Shows hashStringOf Occurs .key (changed occurrence element entries) s' bucket ∧
      Spares s s' bucket ∧ s'.occupied = s.occupied := by
  have hholds := holds_changedMembers h hinj hocc element
  have hordered := ordered_changed h.ordered occurrence element
  have hoccurs := occurs_changed h hocc element
  have hother {other : JsString} (hne : other ≠ bucket) := membersOf_changedMembers s bucket
    (hashStringOf occurrence) (element.map fun element => ⟨occurrence, element⟩) hne
  obtain ⟨hbuckets, hwinners, horders, hoccupied, hassignments⟩ := changedMembers_keeps s bucket
    (hashStringOf occurrence) (element.map fun element => ⟨occurrence, element⟩)
  rw [updateUniqueBucket, currentWinner_eq h]
  simp only [Option.bind_eq_bind]
  rw [nextWinner_eq h hinj hocc element]
  generalize s.changedMembers bucket (hashStringOf occurrence)
    (element.map fun element => ⟨occurrence, element⟩) = s₁ at *
  simp only [Option.bind_some]
  cases hhead : (changed occurrence element entries).head? with
  | none =>
    have hnil := List.head?_eq_none_iff.1 hhead
    refine ⟨_, by simp only [winnerOf, hnil]; rfl, ?_, ?_, ?_⟩
    · rw [hnil]
      constructor
      · exact List.Pairwise.nil
      · simp
      · intro e
        simp [membersOf, JsMap.empty]
      · simp [publishedOf]
      · intro _ winner hwinner
        simp at hwinner
      · intro hmode
        cases hmode
    · constructor
      · intro other hne
        simpa [membersOf, JsMap.get_delete_other _ (Ne.symm hne)] using hother hne
      · intro other hne
        simp [JsMap.get_delete_other _ (Ne.symm hne), hbuckets]
      · intro other hne
        simp [JsMap.get_delete_other _ (Ne.symm hne), hwinners]
      · intro other _
        simp [horders]
      · simp [hoccupied]
      · exact hassignments
    · exact hoccupied
  | some x =>
    have hx := (hordered.head?_eq_iff.1 hhead).1
    have hget : (s₁.membersOf bucket).get (hashStringOf x.1) = some ⟨x.1, x.2⟩ :=
      JsMap.get_of_mem ((hholds _).2 ⟨x, hx, rfl⟩)
    have hmem := mem_changed.1 hx
    obtain ⟨buckets, hpublish, hself, hrest⟩ := publishWinner_eq
      (hashStringOf occurrence) (winnerOf hashStringOf entries)
      (element.map fun element => ⟨occurrence, element⟩) hget
      (by
        rintro entry hentry hid
        have heq := hinj _ _ (hoccurs x hx) hocc hid
        rcases hmem with ⟨_, hel⟩ | ⟨_, hne⟩
        · rw [hel] at hentry
          rw [← Option.some.inj hentry]
        · exact absurd heq hne)
      (by
        intro hprevious hid
        have hxe : x ∈ entries := by
          rcases hmem with ⟨heq, hel⟩ | ⟨hxe, _⟩
          · exact absurd (congrArg hashStringOf heq) (hid (by simp [hel]))
          · exact hxe
        cases hfirst : entries.head? with
        | none => simp [winnerOf, hfirst] at hprevious
        | some y =>
          have hy := (h.ordered.head?_eq_iff.1 hfirst).1
          have heq : hashStringOf x.1 = hashStringOf y.1 := by
            simpa [winnerOf, hfirst] using hprevious
          have hxy := h.ordered.inj hxe hy (hinj _ _ (h.occurs x hxe) (h.occurs y hy) heq)
          rw [hbuckets, h.buckets, publishedOf, hfirst, hxy]
          rfl)
    have hnonempty : (changed occurrence element entries).isEmpty = false := by
      cases hl : changed occurrence element entries with
      | nil => simp [hl] at hhead
      | cons _ _ => rfl
    refine ⟨_, by simp only [winnerOf, hhead, Option.map_some, hpublish, hnonempty]; rfl, ?_, ?_, ?_⟩
    · constructor
      · exact hordered
      · exact hoccurs
      · exact hholds
      · simp [publishedOf, hhead, hself]
      · intro _ winner hwinner
        simpa [hhead] using hwinner
      · intro hmode
        cases hmode
    · constructor
      · exact fun other hne => hother hne
      · intro other hne
        rw [hrest other hne, hbuckets]
      · intro other hne
        simp [JsMap.get_set_other _ (Ne.symm hne), hwinners]
      · intro other _
        simp [horders]
      · simp [hoccupied]
      · exact hassignments
    · exact hoccupied

end CollectionIndex
