import CommonFabric.GroupBuckets

/-!
# Maintaining an index

A change of an occurrence goes through the bucket it was in and the one it is in now. Each is left
standing for its entries, and is listed exactly while it has any.
-/

namespace CollectionIndex

open OrderedEntries Utf8 CollectionKeyIdentity

variable {Link : Type}

/-- What may happen to an index: an occurrence gets a key and an element or is removed, and a
cache loses one of its buckets or is lost. -/
inductive IndexStep (Link : Type) where
  | maintain (occurrence : JsString) (key : Option (CollectionKey Link)) (element : Link)
  | dropWinner (bucket : JsString)
  | dropWinners
  | dropOrder (bucket : JsString)
  | dropOrders

/-- The occurrences there are, each with its key and its element. -/
abbrev Placements (Link : Type) := JsMap JsString (CollectionKey Link × Link)

namespace IndexStep

def place (placements : Placements Link) : IndexStep Link → Placements Link
  | .maintain occurrence (some key) element => placements.set occurrence (key, element)
  | .maintain occurrence none _ => placements.delete occurrence
  | _ => placements

def occurrence? : IndexStep Link → Option JsString
  | .maintain occurrence _ _ => some occurrence
  | _ => none

def key? : IndexStep Link → Option (CollectionKey Link)
  | .maintain _ key _ => key
  | _ => none

end IndexStep

def placements (steps : List (IndexStep Link)) : Placements Link :=
  steps.foldl IndexStep.place .empty

section

variable (hashStringOf : JsString → JsString)
  (collectionKeyBucket : CollectionKeyIdentity → JsString) (dedupKey : Link → JsString)

abbrev bucketOf (key : CollectionKey Link) : JsString :=
  collectionKeyBucket (identityOf dedupKey key)

def step (mode : IndexMode) (s : CollectionIndex Link) :
    IndexStep Link → Option (CollectionIndex Link)
  | .maintain occurrence key element =>
    s.maintainCollectionIndexMembership hashStringOf collectionKeyBucket dedupKey mode occurrence
      key element
  | .dropWinner bucket => some { s with winners := s.winners.map (·.delete bucket) }
  | .dropWinners => some { s with winners := none }
  | .dropOrder bucket => some { s with orders := s.orders.map (·.delete bucket) }
  | .dropOrders => some { s with orders := none }

def run (mode : IndexMode) (steps : List (IndexStep Link)) : Option (CollectionIndex Link) :=
  steps.foldlM (step hashStringOf collectionKeyBucket dedupKey mode) empty

/-- The entries a bucket should show: the occurrences of its key in their order. -/
def entriesAt (placements : Placements Link) (bucket : JsString) : List (JsString × Link) :=
  sortById Prod.fst ((placements.entries.filter fun e =>
    bucketOf collectionKeyBucket dedupKey e.2.1 = bucket).map fun e => (e.1, e.2.2))

end

section

variable {collectionKeyBucket : CollectionKeyIdentity → JsString} {dedupKey : Link → JsString}
  {placements : Placements Link} {bucket : JsString}

theorem mem_entriesAt {x : JsString × Link} :
    x ∈ entriesAt collectionKeyBucket dedupKey placements bucket ↔
      ∃ key, placements.get x.1 = some (key, x.2) ∧
        bucketOf collectionKeyBucket dedupKey key = bucket := by
  rw [entriesAt, sortById, (List.perm_insertionSort _ _).mem_iff]
  simp only [List.mem_map, List.mem_filter, decide_eq_true_eq]
  constructor
  · rintro ⟨e, ⟨he, hbucket⟩, rfl⟩
    exact ⟨e.2.1, JsMap.get_of_mem he, hbucket⟩
  · rintro ⟨key, hget, hbucket⟩
    exact ⟨(x.1, key, x.2), ⟨JsMap.mem_of_get hget, hbucket⟩, rfl⟩

theorem ordered_entriesAt :
    Ordered Precedes (entriesAt collectionKeyBucket dedupKey placements bucket) := by
  have hnodup : (((placements.entries.filter fun e =>
      bucketOf collectionKeyBucket dedupKey e.2.1 = bucket).map
        fun e => (e.1, e.2.2)).map Prod.fst).Nodup := by
    rw [List.map_map]
    exact placements.nodup.sublist
      (List.filter_sublist.map fun e : JsString × CollectionKey Link × Link => e.1)
  have hperm := List.perm_insertionSort (fun a b : JsString × Link => le a.1 b.1)
    ((placements.entries.filter fun e =>
      bucketOf collectionKeyBucket dedupKey e.2.1 = bucket).map fun e => (e.1, e.2.2))
  refine List.Pairwise.imp₂ ?_ (List.pairwise_insertionSort
    (fun a b : JsString × Link => le a.1 b.1) _)
    (List.pairwise_map.1 ((hperm.map Prod.fst).nodup_iff.2 hnodup))
  intro a b hle hne
  exact lt_of_le_of_ne hle fun h0 => hne (utf8Compare_lawful.eq _ _ h0)

theorem get_place (occurrence : JsString) (key : Option (CollectionKey Link)) (element : Link)
    (other : JsString) :
    JsMap.get ((IndexStep.maintain occurrence key element).place placements) other =
      if occurrence = other then key.map fun key => (key, element)
      else JsMap.get placements other := by
  cases key with
  | none => exact JsMap.get_delete ..
  | some key => exact JsMap.get_set ..

/-- What a step does to the entries of a bucket. -/
theorem entriesAt_place (occurrence : JsString) (key : Option (CollectionKey Link))
    (element : Link) :
    entriesAt collectionKeyBucket dedupKey
        ((IndexStep.maintain occurrence key element).place placements) bucket =
      changed occurrence
        (if some bucket = key.map (bucketOf collectionKeyBucket dedupKey) then some element
          else none)
        (entriesAt collectionKeyBucket dedupKey placements bucket) := by
  apply eq_of_mem_iff ordered_entriesAt (ordered_changed ordered_entriesAt occurrence _)
  intro x
  rw [mem_entriesAt, mem_changed, mem_entriesAt]
  rw [get_place]
  by_cases heq : occurrence = x.1
  · subst heq
    cases key with
    | none => simp
    | some key =>
      by_cases hb : bucket = bucketOf collectionKeyBucket dedupKey key
      · simp [hb, eq_comm]
      · simp [hb, Ne.symm hb]
  · simp [heq, Ne.symm heq]

end

section Maintain

variable {hashStringOf : JsString → JsString} {collectionKeyBucket : CollectionKeyIdentity → JsString}
  {dedupKey : Link → JsString} {Occurs : JsString → Prop} {mode : IndexMode}
  {s : CollectionIndex Link}

/-- The buckets stand for some entries each, and those that are occupied are listed with a key
that leads to them. -/
structure BucketsShow (hashStringOf : JsString → JsString)
    (collectionKeyBucket : CollectionKeyIdentity → JsString) (dedupKey : Link → JsString)
    (Occurs : JsString → Prop) (Keyed : CollectionKey Link → Prop) (mode : IndexMode)
    (entries : JsString → List (JsString × Link)) (s : CollectionIndex Link) : Prop where
  shows : ∀ bucket, Shows hashStringOf Occurs mode (entries bucket) s bucket
  occupied : ∀ bucket, s.occupied.has bucket = !(entries bucket).isEmpty
  keys : ∀ bucket listed, s.occupied.get bucket = some listed →
    ∃ key, Keyed key ∧ bucketOf collectionKeyBucket dedupKey key = bucket ∧
      listed = occupiedKey dedupKey key

theorem Shows.of_spares {entries : List (JsString × Link)} {s' : CollectionIndex Link}
    {bucket other : JsString} (hne : other ≠ bucket)
    (h : Shows hashStringOf Occurs mode entries s other) (hspares : Spares s s' bucket) :
    Shows hashStringOf Occurs mode entries s' other where
  ordered := h.ordered
  occurs := h.occurs
  members := by rw [hspares.members other hne]; exact h.members
  buckets := by rw [hspares.buckets other hne]; exact h.buckets
  winner := by rw [hspares.winner other hne]; exact h.winner
  order := by rw [hspares.order other hne]; exact h.order

/-- A bucket goes on standing for its entries when a cache loses some of what it holds. -/
theorem Shows.dropped {entries : List (JsString × Link)} {s' : CollectionIndex Link}
    {bucket : JsString} (h : Shows hashStringOf Occurs mode entries s bucket)
    (hmembers : s'.members = s.members) (hbuckets : s'.buckets = s.buckets)
    (hwinners : ∀ winner, (s'.winners.getD .empty).get bucket = some winner →
      (s.winners.getD .empty).get bucket = some winner)
    (horders : ∀ order, (s'.orders.getD .empty).get bucket = some order →
      (s.orders.getD .empty).get bucket = some order) :
    Shows hashStringOf Occurs mode entries s' bucket where
  ordered := h.ordered
  occurs := h.occurs
  members := by rw [membersOf, hmembers]; exact h.members
  buckets := by rw [hbuckets]; exact h.buckets
  winner hmode winner hwinner := h.winner hmode winner (hwinners winner hwinner)
  order hmode order horder := h.order hmode order (horders order horder)

/-- The slots of a bucket do not depend on which buckets are listed. -/
theorem Shows.listed {entries : List (JsString × Link)} {bucket : JsString}
    (h : Shows hashStringOf Occurs mode entries s bucket)
    (occupied : JsMap JsString (OccupiedKey Link)) :
    Shows hashStringOf Occurs mode entries { s with occupied := occupied } bucket :=
  h.dropped rfl rfl (fun _ hw => hw) fun _ ho => ho

theorem has_eq_isSome {κ ν : Type} [DecidableEq κ] (m : JsMap κ ν) (k : κ) :
    m.has k = (m.get k).isSome := rfl

/-- What a bucket gets of a change: the element where the occurrence now is, nothing elsewhere. -/
abbrev received (collectionKeyBucket : CollectionKeyIdentity → JsString)
    (dedupKey : Link → JsString) (key : Option (CollectionKey Link)) (element : Link)
    (bucket : JsString) : Option Link :=
  if some bucket = key.map (bucketOf collectionKeyBucket dedupKey) then some element else none

theorem key_of_received {key : Option (CollectionKey Link)} {element : Link} {bucket : JsString}
    (h : received collectionKeyBucket dedupKey key element bucket ≠ none) :
    ∃ held, key = some held ∧ bucketOf collectionKeyBucket dedupKey held = bucket := by
  rw [received] at h
  split at h
  case isTrue heq =>
    obtain ⟨held, hkey, hheld⟩ := Option.map_eq_some_iff.1 heq.symm
    exact ⟨held, hkey, hheld⟩
  case isFalse => exact absurd rfl h

variable {Keyed : CollectionKey Link → Prop} {entries : JsString → List (JsString × Link)}
  (hinj : ∀ a b, Occurs a → Occurs b → hashStringOf a = hashStringOf b → a = b)
  {occurrence : JsString} (hocc : Occurs occurrence) {key : Option (CollectionKey Link)}
  (hkey : ∀ held, key = some held → Keyed held) (element : Link)
include hinj hocc hkey

theorem maintainBucket_shows (bucket : JsString)
    (h : BucketsShow hashStringOf collectionKeyBucket dedupKey Occurs Keyed mode entries s) :
    ∃ s', s.maintainBucket hashStringOf collectionKeyBucket dedupKey mode occurrence key element
        bucket = some s' ∧
      BucketsShow hashStringOf collectionKeyBucket dedupKey Occurs Keyed mode
        (fun other => if other = bucket then
            changed occurrence (received collectionKeyBucket dedupKey key element other)
              (entries other)
          else entries other) s' ∧
      s'.assignments = s.assignments := by
  have hupdate : ∃ s', s.updateBucket mode bucket (hashStringOf occurrence) occurrence
      ((received collectionKeyBucket dedupKey key element bucket).map
        fun element => ⟨occurrence, element⟩) (!(entries bucket).isEmpty) =
        some (s', !(changed occurrence (received collectionKeyBucket dedupKey key element bucket)
          (entries bucket)).isEmpty) ∧
      Shows hashStringOf Occurs mode (changed occurrence
        (received collectionKeyBucket dedupKey key element bucket) (entries bucket)) s' bucket ∧
      Spares s s' bucket ∧ s'.occupied = s.occupied := by
    have hshows := h.shows bucket
    cases mode with
    | key => exact updateUniqueBucket_shows hshows hinj hocc _
    | group =>
      obtain ⟨s', heq, hrest⟩ := updateGroupBucket_shows hshows hinj hocc
        (received collectionKeyBucket dedupKey key element bucket)
      exact ⟨s', congrArg some heq, hrest⟩
  obtain ⟨s', hupdate, hshows, hspares, hoccupied⟩ := hupdate
  have hmember : (if some bucket = key.map (bucketOf collectionKeyBucket dedupKey) then
      some (⟨occurrence, element⟩ : IndexMember Link) else none) =
      (received collectionKeyBucket dedupKey key element bucket).map
        fun element => ⟨occurrence, element⟩ := by
    rw [received]
    split <;> rfl
  rw [maintainBucket]
  simp only [h.occupied bucket, Option.bind_eq_bind]
  rw [hmember, hupdate, Option.bind_some]
  generalize hafter : changed occurrence (received collectionKeyBucket dedupKey key element bucket)
    (entries bucket) = after at hupdate hshows ⊢
  have hshow (s'' : CollectionIndex Link) (hs'' : ∃ occupied, s'' = { s' with occupied := occupied })
      (other : JsString) : Shows hashStringOf Occurs mode
        (if other = bucket then changed occurrence
          (received collectionKeyBucket dedupKey key element other) (entries other)
        else entries other) s'' other := by
    obtain ⟨occupied, rfl⟩ := hs''
    by_cases heq : other = bucket
    · subst heq
      rw [if_pos rfl, hafter]
      exact hshows.listed occupied
    · rw [if_neg heq]
      exact ((h.shows other).of_spares heq hspares).listed occupied
  by_cases hsame : (!(entries bucket).isEmpty) = !after.isEmpty
  · rw [if_pos hsame]
    refine ⟨s', rfl, ⟨hshow s' ⟨s'.occupied, rfl⟩, fun other => ?_, ?_⟩, hspares.assignments⟩
    · rw [hoccupied, h.occupied other]
      by_cases heq : other = bucket
      · rw [if_pos heq, heq, hsame, ← hafter]
      · rw [if_neg heq]
    · rw [hoccupied]
      exact h.keys
  · rw [if_neg hsame]
    cases hnow : after.isEmpty with
    | true =>
      refine ⟨_, rfl, ⟨hshow _ ⟨_, rfl⟩, fun other => ?_, fun other listed hlisted => ?_⟩,
        hspares.assignments⟩
      · rw [hoccupied, has_eq_isSome, JsMap.get_delete]
        by_cases heq : other = bucket
        · rw [if_pos heq, if_pos heq.symm, heq, hafter, hnow]
          rfl
        · rw [if_neg heq, if_neg (Ne.symm heq), ← has_eq_isSome, h.occupied other]
      · rw [hoccupied, JsMap.get_delete] at hlisted
        split at hlisted
        · cases hlisted
        · exact h.keys other listed hlisted
    | false =>
      have hempty : entries bucket = [] := by simpa [hnow] using hsame
      have hkeyed : ∃ held, key = some held ∧
          bucketOf collectionKeyBucket dedupKey held = bucket := by
        apply key_of_received
        intro hnone
        rw [hempty, hnone] at hafter
        rw [← hafter] at hnow
        cases hnow
      obtain ⟨held, rfl, hheld⟩ := hkeyed
      refine ⟨_, rfl, ⟨hshow _ ⟨_, rfl⟩, fun other => ?_, fun other listed hlisted => ?_⟩,
        hspares.assignments⟩
      · rw [hoccupied, has_eq_isSome, JsMap.get_set]
        by_cases heq : other = bucket
        · rw [if_pos heq, if_pos heq.symm, heq, hafter, hnow]
          rfl
        · rw [if_neg heq, if_neg (Ne.symm heq), ← has_eq_isSome, h.occupied other]
      · rw [hoccupied, JsMap.get_set] at hlisted
        split at hlisted
        · rename_i heq
          exact ⟨held, hkey held rfl, hheld.trans heq, (Option.some.inj hlisted).symm⟩
        · exact h.keys other listed hlisted

theorem maintainBuckets_shows {buckets : List JsString} (hnodup : buckets.Nodup)
    (h : BucketsShow hashStringOf collectionKeyBucket dedupKey Occurs Keyed mode entries s) :
    ∃ s', buckets.foldlM (fun s bucket => s.maintainBucket hashStringOf collectionKeyBucket dedupKey
        mode occurrence key element bucket) s = some s' ∧
      BucketsShow hashStringOf collectionKeyBucket dedupKey Occurs Keyed mode
        (fun other => if other ∈ buckets then
            changed occurrence (received collectionKeyBucket dedupKey key element other)
              (entries other)
          else entries other) s' ∧
      s'.assignments = s.assignments := by
  induction buckets generalizing s entries with
  | nil => exact ⟨s, rfl, by simpa using h, rfl⟩
  | cons bucket buckets ih =>
    obtain ⟨hbucket, hnodup⟩ := List.nodup_cons.1 hnodup
    obtain ⟨s₁, heq₁, h₁, hassigned₁⟩ := maintainBucket_shows hinj hocc hkey element bucket h
    obtain ⟨s₂, heq₂, h₂, hassigned₂⟩ := ih hnodup h₁
    refine ⟨s₂, ?_, ?_, hassigned₂.trans hassigned₁⟩
    · rw [List.foldlM_cons, heq₁]
      exact heq₂
    · convert h₂ using 2 with other
      by_cases heq : other = bucket
      · subst heq
        simp [hbucket]
      · simp [heq]

end Maintain

end CollectionIndex
