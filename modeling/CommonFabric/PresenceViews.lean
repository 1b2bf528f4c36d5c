import Mathlib.Data.List.Induction
import CommonFabric.PresenceMembers

/-!
# What the members of a room see

A member sees the records that its last join was answered with, overlaid with what was pushed to it
since. A member that joins again is answered with the records as they stand, and a change of its
own principal is pushed to nobody: without one, every member sees the latest record of every other.
-/

namespace Presence

inductive Received where
  | answer (participants : List PresenceRecord)
  | push (message : PresenceMessage)

def Event.receivedBy {σ : Type} (id : JsString) : Event σ → Option Received
  | .joined participantId participants =>
    if participantId = id then some (.answer participants) else none
  | .published _ => none
  | .sent receiver _ message => if receiver = id then some (.push message) else none

/-- What a participant was answered and sent, in order. -/
def inbox {σ : Type} (id : JsString) (events : List (Event σ)) : List Received :=
  events.filterMap (Event.receivedBy id)

abbrev View := JsMap JsString PresenceRecord

def viewStep (view : Option View) : Received → Option View
  | .answer participants =>
    some (JsMap.empty.setAll (participants.map fun record => (record.participantId, record)))
  | .push (.upsert _ _ _ participant) => view.map (·.set participant.participantId participant)
  | .push (.remove _ _ _ participantId) => view.map (·.delete participantId)

/-- The last answer of a join, overlaid with what was pushed since. -/
def viewOf (received : List Received) : Option View := received.foldl viewStep none

def revisionStep (id : JsString) (revisions : List ℤ) : Received → List ℤ
  | .answer participants => (participants.filter (·.participantId = id)).map (·.revision)
  | .push (.upsert _ _ _ participant) =>
    if participant.participantId = id then revisions ++ [participant.revision] else revisions
  | .push (.remove _ _ _ _) => revisions

/-- The revisions of a participant that another was shown since its last join. -/
def revisionsOf (id : JsString) (received : List Received) : List ℤ :=
  received.foldl (revisionStep id) []

def Event.publishedBy {σ : Type} (id : JsString) : Event σ → Option PresenceRecord
  | .published participant => if participant.participantId = id then some participant else none
  | _ => none

/-- The latest record of a participant that was accepted. -/
def latestRecord {σ : Type} (id : JsString) (events : List (Event σ)) : Option PresenceRecord :=
  (events.filterMap (Event.publishedBy id)).getLast?

section Received

variable {σ : Type} {events more : List (Event σ)} {received : List Received} {id : JsString}

theorem inbox_append : inbox id (events ++ more) = inbox id events ++ inbox id more :=
  List.filterMap_append

theorem viewOf_concat (item : Received) :
    viewOf (received ++ [item]) = viewStep (viewOf received) item := by
  rw [viewOf, List.foldl_append]
  rfl

theorem revisionsOf_concat (item : Received) :
    revisionsOf id (received ++ [item]) = revisionStep id (revisionsOf id received) item := by
  rw [revisionsOf, List.foldl_append]
  rfl

theorem latestRecord_append_of_none (h : ∀ event ∈ more, event.publishedBy id = none) :
    latestRecord id (events ++ more) = latestRecord id events := by
  have hnone : more.filterMap (Event.publishedBy id) = [] := List.filterMap_eq_nil_iff.2 h
  rw [latestRecord, List.filterMap_append, hnone, List.append_nil]
  rfl

theorem latestRecord_published (record : PresenceRecord)
    (h : ∀ event ∈ more, event.publishedBy record.participantId = none) :
    latestRecord record.participantId (events ++ .published record :: more) = some record := by
  have hnone : more.filterMap (Event.publishedBy record.participantId) = [] :=
    List.filterMap_eq_nil_iff.2 h
  have hhead : Event.publishedBy record.participantId (.published record : Event σ) =
      some record := if_pos rfl
  rw [latestRecord, List.filterMap_append, List.filterMap_cons_some hhead, hnone,
    List.getLast?_append]
  rfl

variable {members : List Membership} {message : Membership → PresenceMessage}

theorem inbox_pushTo_none {st : PresenceRooms σ}
    (h : ∀ member ∈ members, member.participantId ≠ id) :
    inbox id (pushTo st members message) = [] := by
  apply List.filterMap_eq_nil_iff.2
  intro event hevent
  obtain ⟨other, hother, rfl⟩ := List.mem_map.1 hevent
  exact if_neg (h other hother)

/-- A push to many reaches each once. -/
theorem inbox_pushTo {st : PresenceRooms σ} {member : Membership}
    (hnodup : (members.map (·.participantId)).Nodup) (hmem : member ∈ members) :
    inbox member.participantId (pushTo st members message) = [.push (message member)] := by
  induction members with
  | nil => cases hmem
  | cons first members ih =>
    rw [List.map_cons, List.nodup_cons] at hnodup
    rw [pushTo, List.map_cons, inbox, ← pushTo]
    rcases List.mem_cons.1 hmem with rfl | hmem
    · have hhead : Event.receivedBy member.participantId (.sent member.participantId
          (st.fields member.participantId).send (message member)) =
          some (.push (message member)) := if_pos rfl
      have hrest : inbox member.participantId (pushTo st members message) = [] := by
        apply inbox_pushTo_none
        intro other hother hsame
        exact hnodup.1 (List.mem_map.2 ⟨other, hother, hsame⟩)
      rw [List.filterMap_cons_some hhead, ← inbox, hrest]
    · have hapart : first.participantId ≠ member.participantId := fun hsame =>
        hnodup.1 (List.mem_map.2 ⟨member, hmem, hsame.symm⟩)
      have hhead : Event.receivedBy member.participantId (.sent first.participantId
          (st.fields first.participantId).send (message first)) = none := if_neg hapart
      rw [List.filterMap_cons_none hhead]
      exact ih hnodup.2 hmem

theorem publishedBy_pushTo {st : PresenceRooms σ} :
    ∀ event ∈ pushTo st members message, event.publishedBy id = none := by
  intro event hevent
  obtain ⟨other, -, rfl⟩ := List.mem_map.1 hevent
  rfl

/-- What a member sees after an answer. -/
theorem get_answer {participants : List PresenceRecord} {record : PresenceRecord}
    (hnodup : (participants.map (·.participantId)).Nodup) :
    (JsMap.empty.setAll (participants.map fun record => (record.participantId, record)) : View).get
        id = some record ↔ record ∈ participants ∧ record.participantId = id := by
  have hkeys : ((participants.map fun record => (record.participantId, record)).map (·.1)).Nodup := by
    rw [List.map_map]
    exact hnodup
  have hget : ∀ record ∈ participants, (JsMap.empty.setAll
      (participants.map fun record => (record.participantId, record)) : View).get
        record.participantId = some record := fun record hmem =>
    JsMap.get_setAll_of_mem _ hkeys (List.mem_map.2 ⟨record, hmem, rfl⟩)
  constructor
  · intro hsome
    by_cases hmem : id ∈ (participants.map fun record => (record.participantId, record)).map (·.1)
    · obtain ⟨e, he, rfl⟩ := List.mem_map.1 hmem
      obtain ⟨found, hfound, rfl⟩ := List.mem_map.1 he
      rw [hget found hfound, Option.some.injEq] at hsome
      subst hsome
      exact ⟨hfound, rfl⟩
    · rw [JsMap.get_setAll_of_not_mem _ hmem] at hsome
      cases hsome
  · rintro ⟨hmem, rfl⟩
    exact hget record hmem

end Received

/-- A record that a member is to see: that of another member of its room, which has published. -/
def ShownTo {σ : Type} (st : PresenceRooms σ) (member : Membership) (id : JsString)
    (record : PresenceRecord) : Prop :=
  ∃ other, Has st.rooms other ∧ other.roomKey = member.roomKey ∧ other ≠ member ∧
    other.participantId = id ∧ recordOf st other = some record

/-- What a member received shows it what it is to see, by growing revisions. -/
structure Sees {σ : Type} (config : Config) (st : PresenceRooms σ) (received : List Received)
    (member : Membership) : Prop where
  view : ∃ view, viewOf received = some view ∧
    ∀ id record, view.get id = some record ↔ ShownTo st member id record
  increasing : ∀ id, (revisionsOf id received).Pairwise (· < ·)
  bounded : ∀ id, ∀ revision ∈ revisionsOf id received, revision ≤ (st.fields id).revision
  known : ∀ id, revisionsOf id received ≠ [] → ∃ n, n < st.drawn ∧ id = config.randomUUID n

section Sees

variable {σ : Type} {config : Config} {st st' : PresenceRooms σ} {received : List Received}
  {member other : Membership} {room : Room} {record : PresenceRecord}

theorem recordOf_participantId (h : recordOf st member = some record) :
    record.participantId = member.participantId := by
  rw [recordOf, Option.map_eq_some_iff] at h
  obtain ⟨publication, -, rfl⟩ := h
  rfl

theorem recordOf_revision (h : recordOf st member = some record) :
    record.revision = (st.fields member.participantId).revision := by
  rw [recordOf, Option.map_eq_some_iff] at h
  obtain ⟨publication, -, rfl⟩ := h
  rfl

theorem recordOf_congr
    (h : st'.fields member.participantId = st.fields member.participantId) :
    recordOf st' member = recordOf st member := by
  rw [recordOf, recordOf, h]

/-- Of identifiers that differ no two records carry one. -/
theorem nodup_records {members : List Membership}
    (h : (members.map (·.participantId)).Nodup) :
    ((members.filterMap (recordOf st)).map (·.participantId)).Nodup := by
  have hsublist : List.Sublist ((members.filterMap (recordOf st)).map (·.participantId))
      (members.map (·.participantId)) := by
    clear h
    induction members with
    | nil => exact List.Sublist.slnil
    | cons first members ih =>
      rw [List.map_cons]
      cases hrecord : recordOf st first with
      | none =>
        rw [List.filterMap_cons_none hrecord]
        exact ih.cons _
      | some record =>
        rw [List.filterMap_cons_some hrecord, List.map_cons, recordOf_participantId hrecord]
        exact ih.cons_cons _
  exact h.sublist hsublist

/-- Nothing that a member is to see has changed. -/
theorem Sees.keep (h : Sees config st received member)
    (hshown : ∀ id record, ShownTo st' member id record ↔ ShownTo st member id record)
    (hrevision : ∀ n, n < st.drawn → (st.fields (config.randomUUID n)).revision ≤
      (st'.fields (config.randomUUID n)).revision)
    (hdrawn : st.drawn ≤ st'.drawn) : Sees config st' received member where
  view := by
    obtain ⟨view, hview, hget⟩ := h.view
    exact ⟨view, hview, fun id record => (hget id record).trans (hshown id record).symm⟩
  increasing := h.increasing
  bounded id revision hrevised := by
    obtain ⟨n, hn, rfl⟩ := h.known id (List.ne_nil_of_mem hrevised)
    exact (h.bounded _ revision hrevised).trans (hrevision n hn)
  known id hid := by
    obtain ⟨n, hn, hdrawn'⟩ := h.known id hid
    exact ⟨n, hn.trans_le hdrawn, hdrawn'⟩

/-- A member that is answered sees every other. -/
theorem Sees.answer (hindexed : Indexed st.rooms st.membersByConnection)
    (hids : Identified config st.rooms st.drawn) (hroom : st.rooms.get member.roomKey = some room)
    (received : List Received) :
    Sees config st
      (received ++ [.answer ((others room member).filterMap (recordOf st))]) member := by
  have hmem : ∀ other, other ∈ others room member ↔
      (Has st.rooms other ∧ other.roomKey = member.roomKey) ∧ other ≠ member := by
    intro other
    rw [mem_others, mem_values hindexed hroom]
  have hothers : ((others room member).map (·.participantId)).Nodup :=
    (nodup_participantIds hindexed hids hroom).sublist (List.Sublist.map _ List.filter_sublist)
  have hrecord : ∀ record, record ∈ (others room member).filterMap (recordOf st) ↔
      ∃ other, ((Has st.rooms other ∧ other.roomKey = member.roomKey) ∧ other ≠ member) ∧
        recordOf st other = some record := by
    intro record
    rw [List.mem_filterMap]
    exact exists_congr fun other => and_congr_left fun _ => hmem other
  have hrevisions : ∀ id, revisionsOf id
      (received ++ [.answer ((others room member).filterMap (recordOf st))]) =
      (((others room member).filterMap (recordOf st)).filter (·.participantId = id)).map
        (·.revision) := fun id => revisionsOf_concat _
  constructor
  case view =>
    refine ⟨_, viewOf_concat _, fun id record => ?_⟩
    rw [get_answer (nodup_records hothers), hrecord]
    constructor
    · rintro ⟨⟨other, ⟨⟨hhas, hkey⟩, hne⟩, hother⟩, rfl⟩
      exact ⟨other, hhas, hkey, hne, (recordOf_participantId hother).symm, hother⟩
    · rintro ⟨other, hhas, hkey, hne, rfl, hother⟩
      exact ⟨⟨other, ⟨⟨hhas, hkey⟩, hne⟩, hother⟩, recordOf_participantId hother⟩
  case increasing =>
    intro id
    rw [hrevisions, List.pairwise_map]
    have hrecords : (((others room member).filterMap (recordOf st)).map (·.participantId)).Nodup :=
      nodup_records hothers
    have hapart := List.pairwise_map.1 hrecords
    apply (hapart.sublist List.filter_sublist).imp_of_mem
    intro a b ha hb hne
    have hida := of_decide_eq_true (List.mem_filter.1 ha).2
    have hidb := of_decide_eq_true (List.mem_filter.1 hb).2
    exact absurd (hida.trans hidb.symm) hne
  case bounded =>
    intro id revision hrevision
    rw [hrevisions] at hrevision
    obtain ⟨record, hrecorded, rfl⟩ := List.mem_map.1 hrevision
    obtain ⟨hrecorded, hid⟩ := List.mem_filter.1 hrecorded
    obtain ⟨other, -, hother⟩ := (hrecord record).1 hrecorded
    rw [recordOf_revision hother, ← recordOf_participantId hother, of_decide_eq_true hid]
  case known =>
    intro id hid
    rw [hrevisions] at hid
    obtain ⟨revision, hrevision⟩ := List.exists_mem_of_ne_nil _ hid
    obtain ⟨record, hrecorded, -⟩ := List.mem_map.1 hrevision
    obtain ⟨hrecorded, hid⟩ := List.mem_filter.1 hrecorded
    obtain ⟨other, ⟨⟨hhas, -⟩, -⟩, hother⟩ := (hrecord record).1 hrecorded
    obtain ⟨n, hn, hdrawn⟩ := hids.drawn other hhas
    refine ⟨n, hn, ?_⟩
    rw [← hdrawn, ← recordOf_participantId hother, of_decide_eq_true hid]

/-- A member that is pushed a record of another sees it. -/
theorem Sees.upsert (h : Sees config st received member) {space sessionId roomName : JsString}
    (hshown : ∀ id shown, ShownTo st' member id shown ↔
      if record.participantId = id then record = shown else ShownTo st member id shown)
    (hpast : (st.fields record.participantId).revision < record.revision)
    (hrevision : (st'.fields record.participantId).revision = record.revision)
    (hother : ∀ id, id ≠ record.participantId → st'.fields id = st.fields id)
    (hdrawn : st'.drawn = st.drawn)
    (hid : ∃ n, n < st.drawn ∧ record.participantId = config.randomUUID n) :
    Sees config st' (received ++ [.push (.upsert space sessionId roomName record)]) member := by
  have hrevisions : ∀ id, revisionsOf id
      (received ++ [.push (.upsert space sessionId roomName record)]) =
      if record.participantId = id then revisionsOf id received ++ [record.revision]
      else revisionsOf id received := fun id => revisionsOf_concat _
  constructor
  case view =>
    obtain ⟨view, hview, hget⟩ := h.view
    refine ⟨view.set record.participantId record, by rw [viewOf_concat, hview]; rfl, ?_⟩
    intro id shown
    rw [hshown, JsMap.get_set]
    split
    · exact Option.some_inj
    · exact hget id shown
  case increasing =>
    intro id
    rw [hrevisions]
    split
    case isTrue hsame =>
      rw [List.pairwise_append]
      refine ⟨h.increasing id, List.pairwise_singleton _ _, ?_⟩
      intro revision hbefore next hnext
      rw [List.mem_singleton.1 hnext]
      exact (h.bounded id revision hbefore).trans_lt (hsame ▸ hpast)
    case isFalse => exact h.increasing id
  case bounded =>
    intro id revision hrevised
    rw [hrevisions] at hrevised
    split at hrevised
    case isTrue hsame =>
      rw [← hsame, hrevision]
      rcases List.mem_append.1 hrevised with hbefore | hnew
      · exact ((h.bounded id revision hbefore).trans_lt (hsame ▸ hpast)).le
      · exact (List.mem_singleton.1 hnew).le
    case isFalse hapart =>
      rw [hother id (Ne.symm hapart)]
      exact h.bounded id revision hrevised
  case known =>
    intro id hsome
    rw [hdrawn]
    rw [hrevisions] at hsome
    split at hsome
    case isTrue hsame => exact hsame ▸ hid
    case isFalse => exact h.known id hsome

/-- A member that is pushed that another left does not see it. -/
theorem Sees.remove (h : Sees config st received member) {space sessionId roomName id : JsString}
    (hshown : ∀ other shown, ShownTo st' member other shown ↔
      id ≠ other ∧ ShownTo st member other shown)
    (hfields : st'.fields = st.fields) (hdrawn : st'.drawn = st.drawn) :
    Sees config st' (received ++ [.push (.remove space sessionId roomName id)]) member := by
  have hrevisions : ∀ other, revisionsOf other
      (received ++ [.push (.remove space sessionId roomName id)]) = revisionsOf other received :=
    fun other => revisionsOf_concat _
  constructor
  case view =>
    obtain ⟨view, hview, hget⟩ := h.view
    refine ⟨view.delete id, by rw [viewOf_concat, hview]; rfl, ?_⟩
    intro other shown
    rw [hshown, JsMap.get_delete, ← hget]
    by_cases hid : id = other
    · simp [hid]
    · simp [hid]
  case increasing =>
    intro other
    rw [hrevisions]
    exact h.increasing other
  case bounded =>
    intro other
    rw [hrevisions, hfields]
    exact h.bounded other
  case known =>
    intro other
    rw [hrevisions, hdrawn]
    exact h.known other

end Sees

end Presence
