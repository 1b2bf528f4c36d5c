import Mathlib.Data.List.Induction
import CommonFabric.IndexMaintenance

/-!
# Runs of an index

Over any sequence of changes, with the caches dropped between them wherever one likes, the index
shows what one built afresh from the current occurrences shows.
-/

namespace CollectionIndex

open OrderedEntries Utf8 CollectionKeyIdentity

variable {Link : Type}

section Runs

variable {hashStringOf : JsString → JsString} {collectionKeyBucket : CollectionKeyIdentity → JsString}
  {dedupKey : Link → JsString} {Occurs : JsString → Prop} {Keyed : CollectionKey Link → Prop}
  {mode : IndexMode} {placements : Placements Link} {s : CollectionIndex Link}

/-- An index shows the occurrences there are, and knows where it has listed each. -/
structure IndexShows (hashStringOf : JsString → JsString)
    (collectionKeyBucket : CollectionKeyIdentity → JsString) (dedupKey : Link → JsString)
    (Occurs : JsString → Prop) (Keyed : CollectionKey Link → Prop) (mode : IndexMode)
    (placements : Placements Link) (s : CollectionIndex Link) : Prop where
  buckets : BucketsShow hashStringOf collectionKeyBucket dedupKey Occurs Keyed mode
    (entriesAt collectionKeyBucket dedupKey placements) s
  assignments : ∀ occurrence, Occurs occurrence → s.assignments.get (hashStringOf occurrence) =
    (placements.get occurrence).map fun placed =>
      ⟨bucketOf collectionKeyBucket dedupKey placed.1, occurrence⟩
  keyed : ∀ occurrence placed, placements.get occurrence = some placed → Keyed placed.1

theorem remove_of_not_mem {κ ν : Type} [DecidableEq κ] {k : κ} {entries : List (κ × ν)}
    (h : ∀ x ∈ entries, x.1 ≠ k) : remove k entries = entries :=
  List.filter_eq_self.2 fun x hx => by simpa using h x hx

theorem mem_affected {previous next : Option JsString} {bucket : JsString} :
    bucket ∈ (if previous = next then [previous] else [previous, next]).filterMap id ↔
      previous = some bucket ∨ next = some bucket := by
  by_cases heq : previous = next
  · simp [heq, eq_comm (a := some bucket)]
  · simp [heq, eq_comm (a := some bucket)]

theorem nodup_affected (previous next : Option JsString) :
    ((if previous = next then [previous] else [previous, next]).filterMap id).Nodup := by
  cases previous with
  | none => cases next <;> simp
  | some previous =>
    cases next with
    | none => simp
    | some next =>
      by_cases heq : previous = next
      · simp [heq]
      · simp [heq]

/-- Whatever a cache loses, the index shows what it did. -/
theorem BucketsShow.dropped {entries : JsString → List (JsString × Link)}
    {s' : CollectionIndex Link}
    (h : BucketsShow hashStringOf collectionKeyBucket dedupKey Occurs Keyed mode entries s)
    (hmembers : s'.members = s.members) (hbuckets : s'.buckets = s.buckets)
    (hoccupied : s'.occupied = s.occupied)
    (hwinners : ∀ bucket winner, (s'.winners.getD .empty).get bucket = some winner →
      (s.winners.getD .empty).get bucket = some winner)
    (horders : ∀ bucket order, (s'.orders.getD .empty).get bucket = some order →
      (s.orders.getD .empty).get bucket = some order) :
    BucketsShow hashStringOf collectionKeyBucket dedupKey Occurs Keyed mode entries s' where
  shows bucket := (h.shows bucket).dropped hmembers hbuckets (hwinners bucket) (horders bucket)
  occupied := by rw [hoccupied]; exact h.occupied
  keys := by rw [hoccupied]; exact h.keys

/-- A change of an occurrence is shown. -/
theorem IndexShows.maintain
    (h : IndexShows hashStringOf collectionKeyBucket dedupKey Occurs Keyed mode placements s)
    (hinj : ∀ a b, Occurs a → Occurs b → hashStringOf a = hashStringOf b → a = b)
    {occurrence : JsString} (hocc : Occurs occurrence) {key : Option (CollectionKey Link)}
    (hkey : ∀ held, key = some held → Keyed held) (element : Link) :
    ∃ s', s.maintainCollectionIndexMembership hashStringOf collectionKeyBucket dedupKey mode
        occurrence key element = some s' ∧
      IndexShows hashStringOf collectionKeyBucket dedupKey Occurs Keyed mode
        ((IndexStep.maintain occurrence key element).place placements) s' := by
  let next := key.map (bucketOf collectionKeyBucket dedupKey)
  let previous := (s.assignments.get (hashStringOf occurrence)).map (·.bucket)
  have hprevious : previous = (placements.get occurrence).map fun placed =>
      bucketOf collectionKeyBucket dedupKey placed.1 := by
    simp only [previous, h.assignments occurrence hocc, Option.map_map]
    rfl
  obtain ⟨s', heq, hbuckets, hassigned⟩ := maintainBuckets_shows hinj hocc hkey element
    (nodup_affected previous next) h.buckets
  -- A bucket that is not affected has not held the occurrence, and does not get it.
  have hentries : (fun other => if other ∈
        (if previous = next then [previous] else [previous, next]).filterMap id then
          changed occurrence (received collectionKeyBucket dedupKey key element other)
            (entriesAt collectionKeyBucket dedupKey placements other)
        else entriesAt collectionKeyBucket dedupKey placements other) =
      entriesAt collectionKeyBucket dedupKey
        ((IndexStep.maintain occurrence key element).place placements) := by
    funext other
    rw [entriesAt_place]
    by_cases hmem : other ∈ (if previous = next then [previous] else [previous, next]).filterMap id
    · rw [if_pos hmem]
    · rw [if_neg hmem]
      rw [mem_affected, not_or] at hmem
      rw [if_neg fun h' => hmem.2 h'.symm]
      apply (remove_of_not_mem _).symm
      rintro x hx rfl
      obtain ⟨held, hget, hheld⟩ := mem_entriesAt.1 hx
      apply hmem.1
      rw [hprevious, hget, Option.map_some, hheld]
  rw [hentries] at hbuckets
  have hassignments : ∀ s'' : CollectionIndex Link, (∀ other,
      s''.assignments.get (hashStringOf other) = if hashStringOf occurrence = hashStringOf other
        then key.map fun key => ⟨bucketOf collectionKeyBucket dedupKey key, occurrence⟩
        else s.assignments.get (hashStringOf other)) → ∀ other, Occurs other →
      s''.assignments.get (hashStringOf other) =
        (JsMap.get ((IndexStep.maintain occurrence key element).place placements) other).map
          fun placed => ⟨bucketOf collectionKeyBucket dedupKey placed.1, other⟩ := by
    intro s'' hs'' other hother
    rw [hs'' other, get_place]
    by_cases hsame : occurrence = other
    · subst hsame
      rw [if_pos rfl, if_pos rfl, Option.map_map]
      rfl
    · rw [if_neg fun hhash => hsame (hinj _ _ hocc hother hhash), if_neg hsame,
        h.assignments other hother]
  have hkeyed : ∀ other placed,
      JsMap.get ((IndexStep.maintain occurrence key element).place placements) other =
        some placed → Keyed placed.1 := by
    intro other placed hget
    rw [get_place] at hget
    split at hget
    · obtain ⟨held, hheld, rfl⟩ := Option.map_eq_some_iff.1 hget
      exact hkey held hheld
    · exact h.keyed other placed hget
  rw [maintainCollectionIndexMembership]
  simp only [Option.bind_eq_bind]
  rw [heq, Option.bind_some]
  cases key with
  | none =>
    refine ⟨{ s' with assignments := s'.assignments.delete (hashStringOf occurrence) }, rfl,
      hbuckets.dropped rfl rfl rfl (fun _ _ hw => hw) (fun _ _ ho => ho),
      hassignments _ fun other => ?_, hkeyed⟩
    rw [hassigned, JsMap.get_delete]
    rfl
  | some key =>
    refine ⟨{ s' with
        assignments := s'.assignments.set (hashStringOf occurrence)
          ⟨bucketOf collectionKeyBucket dedupKey key, occurrence⟩ }, rfl,
      hbuckets.dropped rfl rfl rfl (fun _ _ hw => hw) (fun _ _ ho => ho),
      hassignments _ fun other => ?_, hkeyed⟩
    rw [hassigned, JsMap.get_set]
    rfl

theorem get_dropped {ν : Type} {cache : Option (JsMap JsString ν)} {dropped bucket : JsString}
    {value : ν} (h : ((cache.map fun held => held.delete dropped).getD JsMap.empty).get bucket =
      some value) :
    (cache.getD JsMap.empty).get bucket = some value := by
  cases cache with
  | none => exact h
  | some cache =>
    rw [Option.map_some, Option.getD_some, JsMap.get_delete] at h
    split at h
    · cases h
    · exact h

theorem IndexShows.step
    (h : IndexShows hashStringOf collectionKeyBucket dedupKey Occurs Keyed mode placements s)
    (hinj : ∀ a b, Occurs a → Occurs b → hashStringOf a = hashStringOf b → a = b)
    {st : IndexStep Link} (hocc : ∀ occurrence, st.occurrence? = some occurrence → Occurs occurrence)
    (hkey : ∀ key, st.key? = some key → Keyed key) :
    ∃ s', CollectionIndex.step hashStringOf collectionKeyBucket dedupKey mode s st = some s' ∧
      IndexShows hashStringOf collectionKeyBucket dedupKey Occurs Keyed mode
        (st.place placements) s' := by
  cases st with
  | maintain occurrence key element => exact h.maintain hinj (hocc _ rfl) hkey element
  | dropWinner bucket =>
    exact ⟨_, rfl, h.buckets.dropped rfl rfl rfl (fun _ _ hw => get_dropped hw) (fun _ _ ho => ho),
      h.assignments, h.keyed⟩
  | dropWinners =>
    exact ⟨_, rfl, h.buckets.dropped rfl rfl rfl (fun _ _ hw => by cases hw) (fun _ _ ho => ho),
      h.assignments, h.keyed⟩
  | dropOrder bucket =>
    exact ⟨_, rfl, h.buckets.dropped rfl rfl rfl (fun _ _ hw => hw) (fun _ _ ho => get_dropped ho),
      h.assignments, h.keyed⟩
  | dropOrders =>
    exact ⟨_, rfl, h.buckets.dropped rfl rfl rfl (fun _ _ hw => hw) (fun _ _ ho => by cases ho),
      h.assignments, h.keyed⟩

theorem IndexShows.run
    (hinj : ∀ a b, Occurs a → Occurs b → hashStringOf a = hashStringOf b → a = b)
    {steps : List (IndexStep Link)}
    (hocc : ∀ st ∈ steps, ∀ occurrence, st.occurrence? = some occurrence → Occurs occurrence)
    (hkey : ∀ st ∈ steps, ∀ key, st.key? = some key → Keyed key)
    (h : IndexShows hashStringOf collectionKeyBucket dedupKey Occurs Keyed mode placements s) :
    ∃ s', steps.foldlM (CollectionIndex.step hashStringOf collectionKeyBucket dedupKey mode) s =
        some s' ∧
      IndexShows hashStringOf collectionKeyBucket dedupKey Occurs Keyed mode
        (steps.foldl (fun placements st => st.place placements) placements) s' := by
  induction steps generalizing placements s with
  | nil => exact ⟨s, rfl, h⟩
  | cons st steps ih =>
    obtain ⟨s₁, heq, h₁⟩ := h.step hinj (hocc st List.mem_cons_self) (hkey st List.mem_cons_self)
    obtain ⟨s₂, heq₂, h₂⟩ := ih (fun st' hst' => hocc st' (List.mem_cons_of_mem _ hst'))
      (fun st' hst' => hkey st' (List.mem_cons_of_mem _ hst')) h₁
    refine ⟨s₂, ?_, h₂⟩
    rw [List.foldlM_cons, heq]
    exact heq₂

variable (hashStringOf collectionKeyBucket dedupKey Occurs Keyed mode) in
theorem indexShows_empty :
    IndexShows hashStringOf collectionKeyBucket dedupKey Occurs Keyed mode .empty
      (empty : CollectionIndex Link) where
  buckets := {
    shows := fun bucket => {
      ordered := List.Pairwise.nil
      occurs := fun x hx => by cases hx
      members := fun e => ⟨fun he => (by cases he), fun ⟨x, hx, _⟩ => (by cases hx)⟩
      buckets := rfl
      winner := fun _ winner hwinner => by cases hwinner
      order := fun _ order horder => by cases horder }
    occupied := fun bucket => rfl
    keys := fun bucket listed hlisted => by cases hlisted }
  assignments occurrence _ := rfl
  keyed occurrence placed hget := by cases hget

/-- The keys that are read are those of the occurrences there are, each once, in their order. -/
theorem IndexShows.keys_read
    (h : IndexShows hashStringOf collectionKeyBucket dedupKey Occurs Keyed mode placements s)
    (hbucket : ∀ a b, Keyed a → Keyed b →
      bucketOf collectionKeyBucket dedupKey a = bucketOf collectionKeyBucket dedupKey b →
        identityOf dedupKey a = identityOf dedupKey b) :
    ((readCollectionIndexKeys s).map (·.identity)).Pairwise
        (fun a b => compareCollectionKeys a b < 0) ∧
      ∀ identity, identity ∈ (readCollectionIndexKeys s).map (·.identity) ↔
        ∃ occurrence placed, JsMap.get placements occurrence = some placed ∧
          identityOf dedupKey placed.1 = identity := by
  have hlisted : ∀ e ∈ s.occupied.entries, ∃ key, Keyed key ∧
      bucketOf collectionKeyBucket dedupKey key = e.1 ∧ e.2.identity = identityOf dedupKey key := by
    intro e he
    obtain ⟨key, hkeyed, hkey, heq⟩ := h.buckets.keys e.1 e.2 (JsMap.get_of_mem he)
    exact ⟨key, hkeyed, hkey, by rw [heq]; rfl⟩
  have hperm : ((readCollectionIndexKeys s).map (·.identity)).Perm
      (s.occupied.entries.map (·.2.identity)) := by
    have := (List.mergeSort_perm s.occupied.values fun a b =>
      decide (compareCollectionKeys a.identity b.identity ≤ 0)).map (·.identity)
    rwa [JsMap.values, List.map_map] at this
  constructor
  · have hnodup : (s.occupied.entries.map (·.2.identity)).Nodup := by
      apply List.pairwise_map.2
      refine List.Pairwise.imp_of_mem ?_ (List.pairwise_map.1 s.occupied.nodup)
      intro e e' he he' hne heq
      obtain ⟨key, -, hkey, hid⟩ := hlisted e he
      obtain ⟨key', -, hkey', hid'⟩ := hlisted e' he'
      apply hne
      rw [← hkey, ← hkey', bucketOf, bucketOf, ← hid, ← hid', heq]
    have hsorted : ((readCollectionIndexKeys s).map (·.identity)).Pairwise
        fun a b => compareCollectionKeys a b ≤ 0 := by
      refine List.pairwise_map.2 ((List.pairwise_mergeSort ?_ ?_ _).imp fun hle => ?_)
      · intro a b c hab hbc
        simp only [decide_eq_true_eq] at hab hbc ⊢
        exact compareCollectionKeys_lawful.le_trans _ _ _ hab hbc
      · intro a b
        simp only [Bool.or_eq_true, decide_eq_true_eq]
        exact compareCollectionKeys_lawful.le_total _ _
      · exact of_decide_eq_true hle
    refine List.Pairwise.imp₂ ?_ hsorted (hperm.nodup_iff.2 hnodup)
    intro a b hle hne
    exact lt_of_le_of_ne hle fun heq => hne (compareCollectionKeys_lawful.eq _ _ heq)
  · intro identity
    rw [hperm.mem_iff, List.mem_map]
    constructor
    · rintro ⟨e, he, rfl⟩
      obtain ⟨key, hkeyed, hkey, hid⟩ := hlisted e he
      have hhas : s.occupied.has e.1 = true := JsMap.has_iff.2 ⟨e.2, he⟩
      rw [h.buckets.occupied, Bool.not_eq_true', List.isEmpty_eq_false_iff_exists_mem] at hhas
      obtain ⟨x, hx⟩ := hhas
      obtain ⟨held, hget, hheld⟩ := mem_entriesAt.1 hx
      refine ⟨x.1, (held, x.2), hget, ?_⟩
      rw [hid]
      exact hbucket _ _ (h.keyed _ _ hget) hkeyed (hheld.trans hkey.symm)
    · rintro ⟨occurrence, placed, hget, rfl⟩
      have hmem : (occurrence, placed.2) ∈ entriesAt collectionKeyBucket dedupKey placements
          (bucketOf collectionKeyBucket dedupKey placed.1) :=
        mem_entriesAt.2 ⟨placed.1, hget, rfl⟩
      have hhas := h.buckets.occupied (bucketOf collectionKeyBucket dedupKey placed.1)
      rw [List.isEmpty_eq_false_iff_exists_mem.2 ⟨_, hmem⟩, Bool.not_false, JsMap.has_iff] at hhas
      obtain ⟨listed, hlist⟩ := hhas
      obtain ⟨key, hkeyed, hkey, hid⟩ := hlisted _ hlist
      exact ⟨_, hlist, hid.trans (hbucket _ _ hkeyed (h.keyed _ _ hget) hkey)⟩

/-- An index is what its occurrences and their keys make of it. -/
structure Recomputed (collectionKeyBucket : CollectionKeyIdentity → JsString)
    (dedupKey : Link → JsString) (mode : IndexMode) (placements : Placements Link)
    (s : CollectionIndex Link) : Prop where
  members : ∀ bucket member, member ∈ (s.membersOf bucket).values ↔
    ∃ key, JsMap.get placements member.occurrence = some (key, member.element) ∧
      bucketOf collectionKeyBucket dedupKey key = bucket
  buckets : ∀ bucket, s.buckets.get bucket =
    publishedOf mode (entriesAt collectionKeyBucket dedupKey placements bucket)
  orders : mode = .group → ∀ bucket order, (s.orders.getD .empty).get bucket = some order →
    order = (entriesAt collectionKeyBucket dedupKey placements bucket).map (·.1)
  keysOrdered : ((readCollectionIndexKeys s).map (·.identity)).Pairwise
    fun a b => compareCollectionKeys a b < 0
  keys : ∀ identity, identity ∈ (readCollectionIndexKeys s).map (·.identity) ↔
    ∃ occurrence placed, JsMap.get placements occurrence = some placed ∧
      identityOf dedupKey placed.1 = identity

theorem IndexShows.recomputed
    (h : IndexShows hashStringOf collectionKeyBucket dedupKey Occurs Keyed mode placements s)
    (hbucket : ∀ a b, Keyed a → Keyed b →
      bucketOf collectionKeyBucket dedupKey a = bucketOf collectionKeyBucket dedupKey b →
        identityOf dedupKey a = identityOf dedupKey b) :
    Recomputed collectionKeyBucket dedupKey mode placements s where
  members bucket member := by
    have hmem : member ∈ (s.membersOf bucket).values ↔
        (member.occurrence, member.element) ∈
          entriesAt collectionKeyBucket dedupKey placements bucket := by
      rw [JsMap.values, List.mem_map]
      constructor
      · rintro ⟨e, he, rfl⟩
        obtain ⟨x, hx, rfl⟩ := ((h.buckets.shows bucket).members e).1 he
        exact hx
      · intro hx
        exact ⟨memberEntry hashStringOf (member.occurrence, member.element),
          ((h.buckets.shows bucket).members _).2 ⟨_, hx, rfl⟩, rfl⟩
    exact hmem.trans mem_entriesAt
  buckets bucket := (h.buckets.shows bucket).buckets
  orders hmode bucket order := (h.buckets.shows bucket).order hmode order
  keysOrdered := (h.keys_read hbucket).1
  keys := (h.keys_read hbucket).2

/-- Two indexes with the same occurrences publish the same and list the same keys. -/
theorem Recomputed.same {placements' : Placements Link} {s' : CollectionIndex Link}
    (h : Recomputed collectionKeyBucket dedupKey mode placements s)
    (h' : Recomputed collectionKeyBucket dedupKey mode placements' s')
    (hsame : ∀ occurrence, JsMap.get placements' occurrence = JsMap.get placements occurrence) :
    (∀ bucket, s'.buckets.get bucket = s.buckets.get bucket) ∧
      (readCollectionIndexKeys s').map (·.identity) =
        (readCollectionIndexKeys s).map (·.identity) := by
  constructor
  · intro bucket
    rw [h.buckets, h'.buckets]
    refine congrArg (publishedOf mode) (eq_of_mem_iff ordered_entriesAt ordered_entriesAt fun x => ?_)
    rw [mem_entriesAt, mem_entriesAt]
    simp only [hsame]
  · have := compareCollectionKeys_lawful.irrefl
    have : Std.Antisymm fun a b => compareCollectionKeys a b < 0 :=
      ⟨fun a b hab hba => absurd (compareCollectionKeys_lawful.trans _ _ _ hab hba)
        (compareCollectionKeys_lawful.irrefl.irrefl a)⟩
    refine List.Pairwise.eq_of_mem_iff h'.keysOrdered h.keysOrdered fun identity => ?_
    rw [h.keys, h'.keys]
    simp only [hsame]

/-- Adding occurrences one by one. -/
def additions (current : List (JsString × CollectionKey Link × Link)) : List (IndexStep Link) :=
  current.map fun e => .maintain e.1 (some e.2.1) e.2.2

theorem placements_additions (current : List (JsString × CollectionKey Link × Link)) :
    CollectionIndex.placements (additions current) = JsMap.empty.setAll current := by
  rw [CollectionIndex.placements, additions, List.foldl_map]
  rfl

theorem get_additions {current : List (JsString × CollectionKey Link × Link)}
    (hperm : current.Perm placements.entries) (occurrence : JsString) :
    JsMap.get (CollectionIndex.placements (additions current)) occurrence =
      JsMap.get placements occurrence := by
  have hnodup : (current.map (·.1)).Nodup := (hperm.map _).nodup_iff.2 placements.nodup
  rw [placements_additions]
  cases hget : JsMap.get placements occurrence with
  | none =>
    rw [JsMap.get_setAll_of_not_mem]
    · rfl
    · rintro hmem
      obtain ⟨e, he, rfl⟩ := List.mem_map.1 hmem
      have hplaced : JsMap.get placements e.1 = some e.2 := JsMap.get_of_mem (hperm.mem_iff.1 he)
      rw [hget] at hplaced
      cases hplaced
  | some placed =>
    exact JsMap.get_setAll_of_mem _ hnodup (hperm.mem_iff.2 (JsMap.mem_of_get hget))

end Runs

/-- What is placed has been placed by some change. -/
theorem placed_by_step {steps : List (IndexStep Link)} {occurrence : JsString}
    {placed : CollectionKey Link × Link}
    (h : JsMap.get (placements steps) occurrence = some placed) :
    ∃ st ∈ steps, st.occurrence? = some occurrence ∧ st.key? = some placed.1 := by
  induction steps using List.reverseRecOn with
  | nil => cases h
  | append_singleton steps st ih =>
    rw [placements, List.foldl_append] at h
    have hbefore : JsMap.get (placements steps) occurrence = some placed →
        ∃ st' ∈ steps ++ [st], st'.occurrence? = some occurrence ∧ st'.key? = some placed.1 :=
      fun hget => (ih hget).imp fun st' hst' => ⟨List.mem_append_left _ hst'.1, hst'.2⟩
    cases st with
    | maintain occurrence' key element =>
      change JsMap.get ((IndexStep.maintain occurrence' key element).place (placements steps))
        occurrence = some placed at h
      rw [get_place] at h
      split at h
      · rename_i heq
        obtain ⟨held, rfl, rfl⟩ := Option.map_eq_some_iff.1 h
        exact ⟨_, List.mem_append_right _ List.mem_cons_self, congrArg some heq, rfl⟩
      · exact hbefore h
    | dropWinner bucket => exact hbefore h
    | dropWinners => exact hbefore h
    | dropOrder bucket => exact hbefore h
    | dropOrders => exact hbefore h

variable (hashStringOf : JsString → JsString)
  (collectionKeyBucket : CollectionKeyIdentity → JsString) (dedupKey : Link → JsString)

/-- Whatever the changes, and whichever caches are lost between them, an index is what one built
afresh from its current occurrences is, in any order of theirs. -/
theorem run_equals_afresh (mode : IndexMode) (steps : List (IndexStep Link))
    (hhash : ∀ st ∈ steps, ∀ st' ∈ steps, ∀ a b, st.occurrence? = some a →
      st'.occurrence? = some b → hashStringOf a = hashStringOf b → a = b)
    (hbucket : ∀ st ∈ steps, ∀ st' ∈ steps, ∀ a b, st.key? = some a → st'.key? = some b →
      bucketOf collectionKeyBucket dedupKey a = bucketOf collectionKeyBucket dedupKey b →
        identityOf dedupKey a = identityOf dedupKey b) :
    ∃ s, run hashStringOf collectionKeyBucket dedupKey mode steps = some s ∧
      Recomputed collectionKeyBucket dedupKey mode (placements steps) s ∧
      ∀ current : List (JsString × CollectionKey Link × Link),
        current.Perm (placements steps).entries →
        ∃ fresh, run hashStringOf collectionKeyBucket dedupKey mode (additions current) =
            some fresh ∧
          (∀ bucket, fresh.buckets.get bucket = s.buckets.get bucket) ∧
          (readCollectionIndexKeys fresh).map (·.identity) =
            (readCollectionIndexKeys s).map (·.identity) := by
  let Occurs (occurrence : JsString) : Prop := ∃ st ∈ steps, st.occurrence? = some occurrence
  let Keyed (key : CollectionKey Link) : Prop := ∃ st ∈ steps, st.key? = some key
  have hinj : ∀ a b, Occurs a → Occurs b → hashStringOf a = hashStringOf b → a = b := by
    rintro a b ⟨st, hst, ha⟩ ⟨st', hst', hb⟩
    exact hhash st hst st' hst' a b ha hb
  have hkeys : ∀ a b, Keyed a → Keyed b →
      bucketOf collectionKeyBucket dedupKey a = bucketOf collectionKeyBucket dedupKey b →
        identityOf dedupKey a = identityOf dedupKey b := by
    rintro a b ⟨st, hst, ha⟩ ⟨st', hst', hb⟩
    exact hbucket st hst st' hst' a b ha hb
  have hempty := indexShows_empty hashStringOf collectionKeyBucket dedupKey Occurs Keyed mode
  obtain ⟨s, hrun, hshows⟩ := IndexShows.run hinj
    (fun st hst occurrence ho => ⟨st, hst, ho⟩) (fun st hst key hk => ⟨st, hst, hk⟩) hempty
  have hrecomputed := hshows.recomputed hkeys
  refine ⟨s, hrun, hrecomputed, fun current hperm => ?_⟩
  have hplaced : ∀ st ∈ additions current, ∃ e ∈ current,
      st = .maintain e.1 (some e.2.1) e.2.2 ∧ Occurs e.1 ∧ Keyed e.2.1 := by
    intro st hst
    obtain ⟨e, he, rfl⟩ := List.mem_map.1 hst
    obtain ⟨by_, hby, hocc, hkey⟩ := placed_by_step (JsMap.get_of_mem (hperm.mem_iff.1 he))
    exact ⟨e, he, rfl, ⟨by_, hby, hocc⟩, by_, hby, hkey⟩
  obtain ⟨fresh, hfresh, hshown⟩ := IndexShows.run hinj
    (fun st hst occurrence ho => by
      obtain ⟨e, -, rfl, hocc, -⟩ := hplaced st hst
      exact Option.some.inj ho ▸ hocc)
    (fun st hst key hk => by
      obtain ⟨e, -, rfl, -, hkeyed⟩ := hplaced st hst
      exact Option.some.inj hk ▸ hkeyed) hempty
  exact ⟨fresh, hfresh, hrecomputed.same (hshown.recomputed hkeys) (get_additions hperm)⟩

/-- The least occurrence leaves a bucket whose winner is not cached. -/
theorem run_equals_afresh_moved :
    let steps : List (IndexStep JsString) :=
      [.maintain "a" (some (.string "k")) "x", .maintain "b" (some (.string "k")) "y",
        .dropWinners, .maintain "a" (some (.string "m")) "x"]
    let bucketOfText : CollectionKeyIdentity → JsString
      | .string value => value
      | _ => ""
    ∃ s, run id bucketOfText id .key steps = some s ∧
      s.buckets.get "k" = some (.single "y") ∧ s.buckets.get "m" = some (.single "x") := by
  intro steps bucketOfText
  have hstring : ∀ st ∈ steps, ∀ key, st.key? = some key → ∃ value, key = .string value := by
    intro st hst key hkey
    simp only [steps, List.mem_cons, List.not_mem_nil, or_false] at hst
    rcases hst with rfl | rfl | rfl | rfl <;> cases hkey <;> exact ⟨_, rfl⟩
  obtain ⟨s, hrun, hs, -⟩ := run_equals_afresh id bucketOfText id .key steps
    (fun _ _ _ _ _ _ _ _ heq => heq) (by
      intro st hst st' hst' a b ha hb heq
      obtain ⟨value, rfl⟩ := hstring st hst a ha
      obtain ⟨value', rfl⟩ := hstring st' hst' b hb
      exact congrArg CollectionKeyIdentity.string heq)
  refine ⟨s, hrun, ?_, ?_⟩
  · rw [hs.buckets]
    decide +kernel
  · rw [hs.buckets]
    decide +kernel

end CollectionIndex
