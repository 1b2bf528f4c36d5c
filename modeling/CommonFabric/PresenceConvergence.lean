import CommonFabric.PresenceViews

/-!
# Presence converges

What every call of a run keeps: the indices agree, and each member sees the latest record of every
other member of its room that has published. A join that gives a member which has published another
principal breaks it, since later members see the new principal and earlier ones the old.
-/

namespace Presence

structure Converged {σ : Type} (config : Config) (st : PresenceRooms σ)
    (events : List (Event σ)) : Prop where
  indexed : Indexed st.rooms st.membersByConnection
  identified : Identified config st.rooms st.drawn
  accepted : ∀ record, .published record ∈ events →
    ∃ n, n < st.drawn ∧ record.participantId = config.randomUUID n
  latest : ∀ member, Has st.rooms member →
    latestRecord member.participantId events = recordOf st member
  sees : ∀ member, Has st.rooms member →
    Sees config st (inbox member.participantId events) member

section End

variable {σ : Type} {config : Config} {st : PresenceRooms σ} {events : List (Event σ)}
  {member other : Membership} {room : Room}

/-- The rooms once a member has left. -/
def leftBy (st : PresenceRooms σ) (room : Room) (member : Membership) : PresenceRooms σ :=
  { st with
    rooms := removeRoom st.rooms room member
    membersByConnection := withoutMember st.membersByConnection member }

theorem endMember_eq (hroom : st.rooms.get member.roomKey = some room) :
    endMember st member = (leftBy st room member,
      if (room.delete (memberKey member.connectionId member.sessionId)).entries.isEmpty ∨
          (recordOf st member).isNone then []
      else pushTo st (room.delete (memberKey member.connectionId member.sessionId)).values
        fun other => .remove (splitRoomKey member.roomKey).1 other.sessionId
          (splitRoomKey member.roomKey).2 member.participantId) := by
  have hnone : (recordOf st member).isNone =
      (st.fields member.participantId).publication.isNone := by
    rw [recordOf, Option.isNone_map]
  rw [endMember, hroom, leftBy, removeRoom, hnone]
  simp only
  by_cases hempty : (room.delete (memberKey member.connectionId
      member.sessionId)).entries.isEmpty = true
  · simp [hempty]
  · by_cases hpublication : (st.fields member.participantId).publication.isNone = true
    · simp [hempty, hpublication]
    · simp only [hempty, hpublication]
      rfl

/-- Who is left of a room that a member leaves. -/
theorem mem_values_delete (h : Indexed st.rooms st.membersByConnection)
    (hroom : st.rooms.get member.roomKey = some room)
    (hget : room.get (memberKey member.connectionId member.sessionId) = some member) :
    other ∈ (room.delete (memberKey member.connectionId member.sessionId)).values ↔
      other ≠ member ∧ Has st.rooms other ∧ other.roomKey = member.roomKey := by
  rw [← mem_values h hroom]
  constructor
  · intro hmem
    obtain ⟨e, he, rfl⟩ := List.mem_map.1 hmem
    obtain ⟨he, hne⟩ := List.mem_filter.1 he
    refine ⟨?_, List.mem_map.2 ⟨e, he, rfl⟩⟩
    intro hsame
    have hplace := (h.placed _ room e.1 e.2 hroom (JsMap.get_of_mem he)).2
    rw [hsame] at hplace
    exact of_decide_eq_true hne hplace.symm
  · rintro ⟨hne, hmem⟩
    obtain ⟨e, he, rfl⟩ := List.mem_map.1 hmem
    refine List.mem_map.2 ⟨e, List.mem_filter.2 ⟨he, decide_eq_true ?_⟩, rfl⟩
    intro hplace
    have hsame := JsMap.get_of_mem he
    rw [hplace, hget, Option.some.injEq] at hsame
    exact hne hsame.symm

theorem Converged.end (h : Converged config st events) (hhas : Has st.rooms member) :
    Converged config (endMember st member).1 (events ++ (endMember st member).2) := by
  obtain ⟨room, hroom, hget⟩ := id hhas
  have hleft : ∀ other, Has (leftBy st room member).rooms other ↔
      other ≠ member ∧ Has st.rooms other := fun other => has_removeRoom hroom hget
  have hindexed : Indexed (leftBy st room member).rooms
      (leftBy st room member).membersByConnection := h.indexed.remove hroom hget
  have hids : Identified config (leftBy st room member).rooms st.drawn :=
    h.identified.remove hroom hget
  have hrecord : ∀ other, recordOf (leftBy st room member) other = recordOf st other :=
    fun other => rfl
  rw [endMember_eq hroom]
  constructor
  case indexed => exact hindexed
  case identified => exact hids
  case accepted =>
    intro record hrecorded
    rcases List.mem_append.1 hrecorded with hbefore | hpushed
    · exact h.accepted record hbefore
    · dsimp only at hpushed
      split at hpushed
      · cases hpushed
      · obtain ⟨_, -, hsent⟩ := List.mem_map.1 hpushed
        cases hsent
  case latest =>
    intro other hother
    rw [hrecord, ← h.latest other ((hleft other).1 hother).2]
    apply latestRecord_append_of_none
    intro event hevent
    dsimp only at hevent
    split at hevent
    · cases hevent
    · exact publishedBy_pushTo event hevent
  case sees =>
    intro other hother
    obtain ⟨hne, hbefore⟩ := (hleft other).1 hother
    have hsees := h.sees other hbefore
    -- who is shown is who was, but the member that left
    have hshown : ∀ id record, ShownTo (leftBy st room member) other id record ↔
        ∃ shown, shown ≠ member ∧ Has st.rooms shown ∧ shown.roomKey = other.roomKey ∧
          shown ≠ other ∧ shown.participantId = id ∧ recordOf st shown = some record := by
      intro id record
      constructor
      · rintro ⟨shown, hhas', hkey, hapart, hid, hshown⟩
        exact ⟨shown, ((hleft shown).1 hhas').1, ((hleft shown).1 hhas').2, hkey, hapart, hid, hshown⟩
      · rintro ⟨shown, hshownne, hhas', hkey, hapart, hid, hshown⟩
        exact ⟨shown, (hleft shown).2 ⟨hshownne, hhas'⟩, hkey, hapart, hid, hshown⟩
    have hkeep : (∀ shown, shown.roomKey = other.roomKey → recordOf st shown ≠ none →
        shown ≠ member) → Sees config (leftBy st room member) (inbox other.participantId events)
          other := by
      intro hirrelevant
      refine hsees.keep (fun id record => ?_) (fun n _ => le_refl _) (le_refl _)
      rw [hshown]
      constructor
      · rintro ⟨shown, -, hrest⟩
        exact ⟨shown, hrest⟩
      · rintro ⟨shown, hhas', hkey, hapart, hid, hrecorded⟩
        refine ⟨shown, ?_, hhas', hkey, hapart, hid, hrecorded⟩
        exact hirrelevant shown hkey (by rw [hrecorded]; exact Option.some_ne_none record)
    rw [inbox_append]
    dsimp only
    have hmem : ∀ told, told ∈ (room.delete (memberKey member.connectionId
        member.sessionId)).values ↔
          told ≠ member ∧ Has st.rooms told ∧ told.roomKey = member.roomKey :=
      fun told => mem_values_delete h.indexed hroom hget
    by_cases hroomKey : other.roomKey = member.roomKey
    case neg =>
      -- nobody outside the room is told
      have hnone : inbox other.participantId (if (room.delete (memberKey member.connectionId
          member.sessionId)).entries.isEmpty ∨ (recordOf st member).isNone then []
          else pushTo st (room.delete (memberKey member.connectionId member.sessionId)).values
            fun other => .remove (splitRoomKey member.roomKey).1 other.sessionId
              (splitRoomKey member.roomKey).2 member.participantId) = [] := by
        split
        · rfl
        · apply inbox_pushTo_none
          intro told htold hsame
          obtain ⟨-, hhas', hkey⟩ := (hmem told).1 htold
          rw [h.identified.unique told other hhas' hbefore hsame] at hkey
          exact hroomKey hkey
      rw [hnone, List.append_nil]
      apply hkeep
      rintro shown hkey - rfl
      exact hroomKey hkey.symm
    case pos =>
      have htold := (hmem other).2 ⟨hne, hbefore, hroomKey⟩
      have hnonempty : ¬(room.delete (memberKey member.connectionId
          member.sessionId)).entries.isEmpty = true := by
        intro hempty
        rw [JsMap.values, List.isEmpty_iff.1 hempty] at htold
        cases htold
      cases hpublished : recordOf st member with
      | none =>
        rw [if_pos (.inr rfl)]
        rw [show inbox other.participantId ([] : List (Event σ)) = [] from rfl, List.append_nil]
        apply hkeep
        rintro shown - hrecorded rfl
        exact hrecorded hpublished
      | some left =>
        rw [if_neg (by simpa using hnonempty)]
        have hnodup : ((room.delete (memberKey member.connectionId
            member.sessionId)).values.map (·.participantId)).Nodup :=
          (nodup_participantIds h.indexed h.identified hroom).sublist
            (List.Sublist.map _ (List.Sublist.map _ List.filter_sublist))
        rw [inbox_pushTo hnodup htold]
        refine hsees.remove (fun id record => ?_) rfl rfl
        rw [hshown]
        constructor
        · rintro ⟨shown, hshownne, hhas', hkey, hapart, rfl, hrecorded⟩
          refine ⟨?_, shown, hhas', hkey, hapart, rfl, hrecorded⟩
          intro hsame
          exact hshownne (h.identified.unique shown member hhas' hhas hsame.symm)
        · rintro ⟨hid, shown, hhas', hkey, hapart, rfl, hrecorded⟩
          exact ⟨shown, fun hsame => hid (by rw [hsame]), hhas', hkey, hapart, rfl, hrecorded⟩

/-- Members that leave one after another are there until their turn. -/
theorem Converged.endAll {members : List Membership} (h : Converged config st events)
    (hnodup : members.Nodup) (hhas : ∀ member ∈ members, Has st.rooms member) :
    Converged config (endAll members st).1 (events ++ (endAll members st).2) := by
  induction members generalizing st events with
  | nil =>
    rw [Presence.endAll, List.append_nil]
    exact h
  | cons member members ih =>
    rw [List.nodup_cons] at hnodup
    have hmember := hhas member List.mem_cons_self
    obtain ⟨room, hroom, hget⟩ := id hmember
    have hrest : ∀ other ∈ members, Has (endMember st member).1.rooms other := by
      intro other hother
      rw [endMember_eq hroom]
      refine (has_removeRoom hroom hget).2 ⟨?_, hhas other (List.mem_cons_of_mem _ hother)⟩
      rintro rfl
      exact hnodup.1 hother
    rw [Presence.endAll, ← List.append_assoc]
    exact ih (h.end hmember) hnodup.2 hrest

theorem Converged.leave (h : Converged config st events)
    (space roomName connectionId sessionId : JsString) :
    Converged config (leave st space roomName connectionId sessionId).1
      (events ++ (leave st space roomName connectionId sessionId).2) := by
  rw [Presence.leave]
  split
  case h_1 =>
    rw [List.append_nil]
    exact h
  case h_2 member hfound =>
    obtain ⟨room, hroom, hget⟩ := Option.bind_eq_some_iff.1 hfound
    obtain ⟨hkey, hplace⟩ := h.indexed.placed _ room _ member hroom hget
    exact h.end ⟨room, hkey ▸ hroom, hplace ▸ hget⟩

theorem Indexed.has_of_connection (h : Indexed st.rooms st.membersByConnection)
    {connectionId : JsString} {members : JsSet Membership}
    (hmembers : st.membersByConnection.get connectionId = some members) :
    ∀ member ∈ members.items, Has st.rooms member := by
  intro member hmember
  have hid := h.owned connectionId members member hmembers hmember
  exact (h.same member).2 ⟨members, hid ▸ hmembers, hmember⟩

theorem Converged.leaveConnection (h : Converged config st events) (connectionId : JsString) :
    Converged config (leaveConnection st connectionId).1
      (events ++ (leaveConnection st connectionId).2) := by
  rw [Presence.leaveConnection]
  split
  case h_1 =>
    rw [List.append_nil]
    exact h
  case h_2 members hmembers =>
    exact h.endAll members.nodup (h.indexed.has_of_connection hmembers)

theorem Converged.leaveSession (h : Converged config st events)
    (space sessionId connectionId : JsString) :
    Converged config (leaveSession st space sessionId connectionId).1
      (events ++ (leaveSession st space sessionId connectionId).2) := by
  rw [Presence.leaveSession]
  split
  case h_1 =>
    rw [List.append_nil]
    exact h
  case h_2 members hmembers =>
    apply h.endAll (members.nodup.filter _)
    intro member hmember
    exact h.indexed.has_of_connection hmembers member (List.mem_filter.1 hmember).1

end End

section Publish

variable {σ : Type} {config : Config} {st : PresenceRooms σ} {events : List (Event σ)}
  {member : Membership} {room : Room}

/-- The rooms with a record of a member accepted. -/
def accepting (st : PresenceRooms σ) (member : Membership) (record : PresenceRecord) :
    PresenceRooms σ :=
  let fields := { st.fields member.participantId with
    revision := record.revision
    publication := some ⟨record.name, record.facets⟩ }
  { st with fields := Function.update st.fields member.participantId fields }

/-- A publication is refused, or accepted with a later revision than before. -/
theorem publish_cases (config : Config) (st : PresenceRooms σ) (input : PublishInput) :
    ((publish config st input).rooms = st ∧ (publish config st input).events = []) ∨
    ∃ room member record,
      st.rooms.get (roomKey input.space input.room) = some room ∧
      room.get (memberKey input.connectionId input.sessionId) = some member ∧
      record.participantId = member.participantId ∧
      (st.fields member.participantId).revision < record.revision ∧
      recordOf (accepting st member record) member = some record ∧
      (publish config st input).rooms = accepting st member record ∧
      (publish config st input).events = .published record :: pushTo (accepting st member record)
        (others room member) fun other => .upsert input.space other.sessionId input.room record := by
  cases hroom : st.rooms.get (roomKey input.space input.room) with
  | none => simp [publish, hroom]
  | some room =>
    cases hget : room.get (memberKey input.connectionId input.sessionId) with
    | none => simp [publish, hroom, hget]
    | some member =>
      cases hrevision : advances input.revision (st.fields member.participantId).revision with
      | none => simp [publish, hroom, hget, hrevision]
      | some revision =>
        cases hvalid : validatePresencePublication config ⟨input.name, input.facets⟩ with
        | some error => simp [publish, hroom, hget, hrevision, hvalid]
        | none =>
          refine .inr ⟨room, member, ⟨member.participantId,
            (st.fields member.participantId).principal, revision, input.name, input.facets⟩, rfl,
            hget, rfl, ?_, ?_, ?_, ?_⟩
          · exact of_decide_eq_true (Option.filter_eq_some_iff.1 hrevision).2
          · simp [recordOf, accepting]
          · simp [publish, hroom, hget, hrevision, hvalid, accepting]
          · simp [publish, hroom, hget, hrevision, hvalid, accepting]

theorem Converged.accept (h : Converged config st events)
    (hroom : st.rooms.get member.roomKey = some room) (hhas : Has st.rooms member)
    {record : PresenceRecord} (hid : record.participantId = member.participantId)
    (hpast : (st.fields member.participantId).revision < record.revision)
    (hrecord : recordOf (accepting st member record) member = some record)
    (space roomName : JsString) :
    Converged config (accepting st member record)
      (events ++ .published record :: pushTo (accepting st member record) (others room member)
        fun other => .upsert space other.sessionId roomName record) := by
  have hothers : ∀ id, id ≠ member.participantId →
      (accepting st member record).fields id = st.fields id :=
    fun id hne => Function.update_of_ne hne _ _
  have hself : ((accepting st member record).fields member.participantId).revision =
      record.revision := by
    simp [accepting]
  have hkept : ∀ other, Has st.rooms other → other ≠ member →
      recordOf (accepting st member record) other = recordOf st other := by
    intro other hother hne
    apply recordOf_congr
    apply hothers
    intro hsame
    exact hne (h.identified.unique other member hother hhas hsame)
  constructor
  case indexed => exact h.indexed
  case identified => exact h.identified
  case accepted =>
    intro accepted haccepted
    rcases List.mem_append.1 haccepted with hbefore | hnow
    · exact h.accepted accepted hbefore
    · rcases List.mem_cons.1 hnow with heq | hpushed
      · cases heq
        rw [hid]
        exact h.identified.drawn member hhas
      · obtain ⟨_, -, hsent⟩ := List.mem_map.1 hpushed
        cases hsent
  case latest =>
    intro other hother
    by_cases hne : other = member
    · subst hne
      rw [hrecord, ← hid]
      exact latestRecord_published record publishedBy_pushTo
    · rw [hkept other hother hne, ← h.latest other hother]
      apply latestRecord_append_of_none
      intro event hevent
      rcases List.mem_cons.1 hevent with rfl | hpushed
      · apply if_neg
        intro hsame
        exact hne (h.identified.unique other member hother hhas (hsame.symm.trans hid))
      · exact publishedBy_pushTo event hpushed
  case sees =>
    intro other hother
    have hsees := h.sees other hother
    have hinbox : inbox other.participantId (.published record ::
        pushTo (accepting st member record) (others room member) fun other =>
          .upsert space other.sessionId roomName record) =
        inbox other.participantId (pushTo (accepting st member record) (others room member)
          fun other => .upsert space other.sessionId roomName record) :=
      List.filterMap_cons_none rfl
    rw [inbox_append, hinbox]
    by_cases htold : other.roomKey = member.roomKey ∧ other ≠ member
    · obtain ⟨hkey, hne⟩ := htold
      have hmem : other ∈ others room member :=
        mem_others.2 ⟨(mem_values h.indexed hroom).2 ⟨hother, hkey⟩, hne⟩
      have hnodup : ((others room member).map (·.participantId)).Nodup :=
        (nodup_participantIds h.indexed h.identified hroom).sublist
          (List.Sublist.map _ List.filter_sublist)
      rw [inbox_pushTo hnodup hmem]
      refine hsees.upsert (fun id shown => ?_) (hid ▸ hpast) (by rw [hid, hself])
        (fun id hapart => hothers id (hid ▸ hapart)) rfl ?_
      · constructor
        · rintro ⟨whose, hhas', hkey', hapart, rfl, hshown⟩
          by_cases hmember : whose = member
          · subst hmember
            rw [if_pos hid]
            exact Option.some.inj (hrecord.symm.trans hshown)
          · rw [if_neg fun hsame => hmember (h.identified.unique whose member hhas' hhas
              (hsame.symm.trans hid))]
            exact ⟨whose, hhas', hkey', hapart, rfl, hkept whose hhas' hmember ▸ hshown⟩
        · intro hshown
          split at hshown
          case isTrue hsame =>
            subst hshown
            exact ⟨member, hhas, hkey.symm, Ne.symm hne, hid ▸ hsame, hrecord⟩
          case isFalse hapart =>
            obtain ⟨whose, hhas', hkey', hother', rfl, hshown⟩ := hshown
            refine ⟨whose, hhas', hkey', hother', rfl, ?_⟩
            rw [hkept whose hhas' fun hsame => hapart (by rw [hsame, hid])]
            exact hshown
      · rw [hid]
        exact h.identified.drawn member hhas
    · have hnone : inbox other.participantId (pushTo (accepting st member record)
          (others room member) fun other => .upsert space other.sessionId roomName record) = [] := by
        apply inbox_pushTo_none
        intro told htoldMem hsame
        obtain ⟨hvalue, hne⟩ := mem_others.1 htoldMem
        obtain ⟨hhas', hkey⟩ := (mem_values h.indexed hroom).1 hvalue
        have heq := h.identified.unique told other hhas' hother hsame
        exact htold ⟨heq ▸ hkey, heq ▸ hne⟩
      rw [hnone, List.append_nil]
      refine hsees.keep (fun id shown => ?_) (fun n _ => ?_) (le_refl _)
      · apply exists_congr
        intro whose
        constructor
        · rintro ⟨hhas', hkey, hapart, hwho, hshown⟩
          refine ⟨hhas', hkey, hapart, hwho, ?_⟩
          rw [← hkept whose hhas' fun hsame => htold ⟨hsame ▸ hkey.symm, fun heq =>
            hapart (hsame.trans heq.symm)⟩]
          exact hshown
        · rintro ⟨hhas', hkey, hapart, hwho, hshown⟩
          refine ⟨hhas', hkey, hapart, hwho, ?_⟩
          rw [hkept whose hhas' fun hsame => htold ⟨hsame ▸ hkey.symm, fun heq =>
            hapart (hsame.trans heq.symm)⟩]
          exact hshown
      · by_cases hsame : config.randomUUID n = member.participantId
        · rw [hsame, hself]
          exact hpast.le
        · rw [hothers _ hsame]

theorem Converged.publish (h : Converged config st events) (input : PublishInput) :
    Converged config (publish config st input).rooms
      (events ++ (publish config st input).events) := by
  cases publish_cases config st input with
  | inl hrefused =>
    rw [hrefused.1, hrefused.2, List.append_nil]
    exact h
  | inr haccepted =>
    obtain ⟨room, member, record, hroom, hget, hid, hpast, hrecord, hrooms, hevents⟩ := haccepted
    obtain ⟨hkey, hplace⟩ := h.indexed.placed _ room _ member hroom hget
    rw [hrooms, hevents]
    have hroom' : st.rooms.get member.roomKey = some room := hkey ▸ hroom
    exact h.accept hroom' ⟨room, hroom', hplace ▸ hget⟩ hid hpast hrecord _ _

end Publish

section Join

variable {σ : Type} {config : Config} {st : PresenceRooms σ} {events : List (Event σ)}
  {member : Membership} {room : Room} {principal : Option JsString} {send : σ}

/-- The rooms with one more member. -/
def joining (st : PresenceRooms σ) (member : Membership) (principal : Option JsString) (send : σ) :
    PresenceRooms σ where
  rooms := addRoom st.rooms member
  membersByConnection := addConnection st.membersByConnection member
  fields := Function.update st.fields member.participantId ⟨principal, 0, none, send⟩
  drawn := st.drawn + 1

/-- The rooms with a member that joined again. -/
def refreshing (st : PresenceRooms σ) (member : Membership) (principal : Option JsString)
    (send : σ) : PresenceRooms σ :=
  let fields := { st.fields member.participantId with
    principal := principal
    send := send }
  { st with fields := Function.update st.fields member.participantId fields }

/-- What a member is answered with. -/
def answerOf (st : PresenceRooms σ) (room : Room) (member : Membership) : List (Event σ) :=
  [.joined member.participantId ((others room member).filterMap (recordOf st))]

theorem join_cases (config : Config) (st : PresenceRooms σ) (input : JoinInput σ) :
    ((join config st input).rooms = st ∧ (join config st input).events = []) ∨
    (∃ member : Membership, member.participantId = config.randomUUID st.drawn ∧
      (roomAt st.rooms member.roomKey).get
        (memberKey member.connectionId member.sessionId) = none ∧
      (join config st input).rooms = joining st member input.principal input.send ∧
      (join config st input).events = answerOf (joining st member input.principal input.send)
        ((roomAt st.rooms member.roomKey).set (memberKey member.connectionId member.sessionId)
          member) member) ∨
    ∃ room member, st.rooms.get (roomKey input.space input.room) = some room ∧
      room.get (memberKey input.connectionId input.sessionId) = some member ∧
      (join config st input).rooms = refreshing st member input.principal input.send ∧
      (join config st input).events =
        answerOf (refreshing st member input.principal input.send) room member := by
  cases hroom : st.rooms.get (roomKey input.space input.room) with
  | none =>
    -- a room that is opened has no member yet, and room for one
    have hspace : ¬MAX_PRESENCE_ROOM_MEMBERS ≤ (JsMap.empty : Room).entries.length := by decide
    refine .inr (.inl ⟨⟨config.randomUUID st.drawn, roomKey input.space input.room,
      input.connectionId, input.sessionId⟩, rfl, ?_, ?_, ?_⟩)
    · simp [roomAt, hroom]
    · simp [join, JsMap.has, hroom, hspace, answerJoin, joining, addRoom, addConnection, roomAt,
        set_set]
    · simp [join, JsMap.has, hroom, hspace, answerJoin, joining, addRoom, addConnection, roomAt,
        set_set, answerOf]
  | some room =>
    cases hget : room.get (memberKey input.connectionId input.sessionId) with
    | none =>
      by_cases hfull : MAX_PRESENCE_ROOM_MEMBERS ≤ room.entries.length
      · simp [join, JsMap.has, hroom, hget, hfull]
      · refine .inr (.inl ⟨⟨config.randomUUID st.drawn, roomKey input.space input.room,
          input.connectionId, input.sessionId⟩, rfl, ?_, ?_, ?_⟩)
        · simp [roomAt, hroom, hget]
        · simp [join, JsMap.has, hroom, hget, hfull, answerJoin, joining, addRoom, addConnection,
            roomAt]
        · simp [join, JsMap.has, hroom, hget, hfull, answerJoin, joining, addRoom, addConnection,
            roomAt, answerOf]
    | some member =>
      refine .inr (.inr ⟨room, member, rfl, hget, ?_, ?_⟩)
      · simp [join, JsMap.has, hroom, hget, answerJoin, refreshing]
      · simp [join, JsMap.has, hroom, hget, answerJoin, refreshing, answerOf]

theorem inbox_answerOf_self : inbox member.participantId (answerOf st room member) =
    [.answer ((others room member).filterMap (recordOf st))] :=
  List.filterMap_cons_some (if_pos rfl)

theorem inbox_answerOf_other {id : JsString} (h : member.participantId ≠ id) :
    inbox id (answerOf st room member) = [] :=
  List.filterMap_cons_none (if_neg h)

theorem publishedBy_answerOf {id : JsString} :
    ∀ event ∈ answerOf st room member, event.publishedBy id = none := by
  intro event hevent
  rw [List.mem_singleton.1 hevent]
  rfl

theorem Converged.join_new (h : Converged config st events)
    (hnew : (roomAt st.rooms member.roomKey).get
      (memberKey member.connectionId member.sessionId) = none)
    (hid : member.participantId = config.randomUUID st.drawn)
    (hfresh : ∀ n, n < st.drawn → config.randomUUID n ≠ config.randomUUID st.drawn) :
    Converged config (joining st member principal send)
      (events ++ answerOf (joining st member principal send)
        ((roomAt st.rooms member.roomKey).set (memberKey member.connectionId member.sessionId)
          member) member) := by
  have hhas : ∀ other, Has (joining st member principal send).rooms other ↔
      other = member ∨ Has st.rooms other := fun other => has_addRoom hnew
  have hapart : ∀ other, Has st.rooms other → other.participantId ≠ member.participantId := by
    intro other hother hsame
    obtain ⟨n, hn, hdrawn⟩ := h.identified.drawn other hother
    rw [hdrawn, hid] at hsame
    exact hfresh n hn hsame
  have hkept : ∀ id, id ≠ member.participantId →
      (joining st member principal send).fields id = st.fields id :=
    fun id hne => Function.update_of_ne hne _ _
  have hnone : recordOf (joining st member principal send) member = none := by
    simp [recordOf, joining]
  have hrecord : ∀ other, Has st.rooms other →
      recordOf (joining st member principal send) other = recordOf st other :=
    fun other hother => recordOf_congr (hkept _ (hapart other hother))
  have hindexed := h.indexed.add hnew
  have hids : Identified config (joining st member principal send).rooms (st.drawn + 1) :=
    h.identified.add hnew hid hfresh
  constructor
  case indexed => exact hindexed
  case identified => exact hids
  case accepted =>
    intro record hrecorded
    rcases List.mem_append.1 hrecorded with hbefore | hanswer
    · obtain ⟨n, hn, hdrawn⟩ := h.accepted record hbefore
      exact ⟨n, Nat.lt_succ_of_lt hn, hdrawn⟩
    · cases List.mem_singleton.1 hanswer
  case latest =>
    intro other hother
    rw [latestRecord_append_of_none publishedBy_answerOf]
    rcases (hhas other).1 hother with rfl | hbefore
    · rw [hnone, latestRecord, List.getLast?_eq_none_iff, List.filterMap_eq_nil_iff]
      intro event hevent
      cases event with
      | joined id participants => rfl
      | sent receiver via message => rfl
      | published record =>
        obtain ⟨n, hn, hdrawn⟩ := h.accepted record hevent
        apply if_neg
        rw [hdrawn, hid]
        exact hfresh n hn
    · rw [hrecord other hbefore]
      exact h.latest other hbefore
  case sees =>
    intro other hother
    rw [inbox_append]
    by_cases hself : other = member
    · subst hself
      rw [inbox_answerOf_self]
      exact Sees.answer hindexed hids (JsMap.get_set_self _ _ _) _
    · have hbefore := ((hhas other).1 hother).resolve_left hself
      rw [inbox_answerOf_other (Ne.symm (hapart other hbefore)), List.append_nil]
      refine (h.sees other hbefore).keep (fun id record => ?_) (fun n hn => ?_)
        (Nat.le_succ st.drawn)
      · constructor
        · rintro ⟨shown, hshown, hkey, hne, rfl, hrecorded⟩
          rcases (hhas shown).1 hshown with rfl | hshown
          · rw [hnone] at hrecorded
            cases hrecorded
          · exact ⟨shown, hshown, hkey, hne, rfl, hrecord shown hshown ▸ hrecorded⟩
        · rintro ⟨shown, hshown, hkey, hne, rfl, hrecorded⟩
          exact ⟨shown, (hhas shown).2 (.inr hshown), hkey, hne, rfl,
            (hrecord shown hshown).trans hrecorded⟩
      · rw [hkept]
        rw [hid]
        exact hfresh n hn

theorem Converged.join_again (h : Converged config st events)
    (hroom : st.rooms.get member.roomKey = some room) (hhas : Has st.rooms member)
    (hkeeps : recordOf st member ≠ none → principal = (st.fields member.participantId).principal) :
    Converged config (refreshing st member principal send)
      (events ++ answerOf (refreshing st member principal send) room member) := by
  have hkept : ∀ id, id ≠ member.participantId →
      (refreshing st member principal send).fields id = st.fields id :=
    fun id hne => Function.update_of_ne hne _ _
  have hself : (refreshing st member principal send).fields member.participantId =
      ⟨principal, (st.fields member.participantId).revision,
        (st.fields member.participantId).publication, send⟩ := Function.update_self _ _ _
  have hrecord : ∀ other, Has st.rooms other →
      recordOf (refreshing st member principal send) other = recordOf st other := by
    intro other hother
    by_cases hsame : other.participantId = member.participantId
    · rw [h.identified.unique other member hother hhas hsame, recordOf, recordOf, hself]
      cases hpublication : (st.fields member.participantId).publication with
      | none => rfl
      | some publication =>
        have hsome : recordOf st member ≠ none := by simp [recordOf, hpublication]
        rw [hkeeps hsome]
    · exact recordOf_congr (hkept _ hsame)
  constructor
  case indexed => exact h.indexed
  case identified => exact h.identified
  case accepted =>
    intro record hrecorded
    rcases List.mem_append.1 hrecorded with hbefore | hanswer
    · exact h.accepted record hbefore
    · cases List.mem_singleton.1 hanswer
  case latest =>
    intro other hother
    rw [latestRecord_append_of_none publishedBy_answerOf, hrecord other hother]
    exact h.latest other hother
  case sees =>
    intro other hother
    rw [inbox_append]
    by_cases hsame : other = member
    · subst hsame
      rw [inbox_answerOf_self]
      have hindexed : Indexed (refreshing st other principal send).rooms
          (refreshing st other principal send).membersByConnection := h.indexed
      exact Sees.answer hindexed h.identified hroom _
    · have hapart : member.participantId ≠ other.participantId := fun hids =>
        hsame (h.identified.unique other member hother hhas hids.symm)
      rw [inbox_answerOf_other hapart, List.append_nil]
      refine (h.sees other hother).keep (fun id record => ?_) (fun n _ => ?_) (le_refl _)
      · apply exists_congr
        intro shown
        constructor
        · rintro ⟨hshown, hkey, hne, hid, hrecorded⟩
          exact ⟨hshown, hkey, hne, hid, hrecord shown hshown ▸ hrecorded⟩
        · rintro ⟨hshown, hkey, hne, hid, hrecorded⟩
          exact ⟨hshown, hkey, hne, hid, (hrecord shown hshown).trans hrecorded⟩
      · by_cases hid : config.randomUUID n = member.participantId
        · rw [hid, hself]
        · rw [hkept _ hid]

end Join

section Run

variable {σ : Type} {config : Config} {st : PresenceRooms σ} {events : List (Event σ)}

/-- A join of a member that has published gives it the principal it has. -/
def KeepsPrincipal (st : PresenceRooms σ) : Call σ → Prop
  | .join input => ∀ room member, st.rooms.get (roomKey input.space input.room) = some room →
      room.get (memberKey input.connectionId input.sessionId) = some member →
      recordOf st member ≠ none → input.principal = (st.fields member.participantId).principal
  | _ => True

instance (call : Call σ) : Decidable (KeepsPrincipal st call) :=
  match call with
  | .join input => decidable_of_iff (∀ member ∈ (st.rooms.get (roomKey input.space input.room)).bind
      (·.get (memberKey input.connectionId input.sessionId)), recordOf st member ≠ none →
        input.principal = (st.fields member.participantId).principal) (by
      simp only [KeepsPrincipal, Option.mem_def, Option.bind_eq_some_iff]
      constructor
      · exact fun h room member hroom hmember => h member ⟨room, hroom, hmember⟩
      · exact fun h member ⟨room, hroom, hmember⟩ => h room member hroom hmember)
  | .publish _ | .leave .. | .leaveConnection _ | .leaveSession .. => .isTrue trivial

theorem endAll_drawn (members : List Membership) (st : PresenceRooms σ) :
    (endAll members st).1.drawn = st.drawn := by
  induction members generalizing st with
  | nil => rfl
  | cons member members ih =>
    have hend : (endMember st member).1.drawn = st.drawn := by
      cases hroom : st.rooms.get member.roomKey with
      | none => simp [endMember, hroom]
      | some room =>
        rw [endMember_eq hroom]
        rfl
    rw [endAll]
    exact (ih _).trans hend

theorem drawn_le_apply (config : Config) (st : PresenceRooms σ) (call : Call σ) :
    st.drawn ≤ (apply config st call).1.drawn := by
  cases call with
  | join input =>
    rcases join_cases config st input with
      ⟨hrooms, -⟩ | ⟨member, -, -, hrooms, -⟩ | ⟨room, member, -, -, hrooms, -⟩
    · rw [apply, hrooms]
    · rw [apply, hrooms]
      exact Nat.le_succ st.drawn
    · rw [apply, hrooms]
      exact le_refl st.drawn
  | publish input =>
    rcases publish_cases config st input with ⟨hrooms, -⟩ | ⟨room, member, record, -, -, -, -, -,
      hrooms, -⟩
    · rw [apply, hrooms]
    · rw [apply, hrooms]
      exact le_refl st.drawn
  | leave space roomName connectionId sessionId =>
    rw [apply, leave]
    split
    · exact le_refl st.drawn
    · rename_i member _
      have hend := endAll_drawn [member] st
      exact hend.ge
  | leaveConnection connectionId =>
    rw [apply, leaveConnection]
    split
    · exact le_refl st.drawn
    · exact (endAll_drawn _ st).ge
  | leaveSession space sessionId connectionId =>
    rw [apply, leaveSession]
    split
    · exact le_refl st.drawn
    · exact (endAll_drawn _ st).ge

theorem Converged.apply (h : Converged config st events) (call : Call σ)
    (hkeeps : KeepsPrincipal st call)
    (hfresh : ∀ m n, m < n → n < (apply config st call).1.drawn →
      config.randomUUID m ≠ config.randomUUID n) :
    Converged config (apply config st call).1 (events ++ (apply config st call).2) := by
  cases call with
  | join input =>
    rcases join_cases config st input with ⟨hrooms, hevents⟩ |
      ⟨member, hid, hnew, hrooms, hevents⟩ | ⟨room, member, hroom, hget, hrooms, hevents⟩
    · rw [Presence.apply, hrooms, hevents, List.append_nil]
      exact h
    · rw [Presence.apply, hrooms] at hfresh
      rw [Presence.apply, hrooms, hevents]
      exact h.join_new hnew hid fun n hn => hfresh n st.drawn hn (Nat.lt_succ_self st.drawn)
    · rw [Presence.apply, hrooms, hevents]
      obtain ⟨hkey, hplace⟩ := h.indexed.placed _ room _ member hroom hget
      have hroom' : st.rooms.get member.roomKey = some room := hkey ▸ hroom
      exact h.join_again hroom' ⟨room, hroom', hplace ▸ hget⟩ (hkeeps room member hroom hget)
  | publish input => exact h.publish input
  | leave space roomName connectionId sessionId => exact h.leave space roomName connectionId sessionId
  | leaveConnection connectionId => exact h.leaveConnection connectionId
  | leaveSession space sessionId connectionId => exact h.leaveSession space sessionId connectionId

end Run

section Converges

variable {σ : Type} [Inhabited σ] {config : Config} {calls : List (Call σ)}

theorem run_concat (config : Config) (calls : List (Call σ)) (call : Call σ) :
    run config (calls ++ [call]) = ((apply config (run config calls).1 call).1,
      (run config calls).2 ++ (apply config (run config calls).1 call).2) := by
  rw [run, List.foldl_append, run]
  rfl

/-- The identifiers that a run draws are distinct. -/
def Distinct (config : Config) (calls : List (Call σ)) : Prop :=
  ∀ m n, m < n → n < (run config calls).1.drawn → config.randomUUID m ≠ config.randomUUID n

/-- No join of a run gives a member that has published another principal. -/
def KeepsPrincipals (config : Config) (calls : List (Call σ)) : Prop :=
  ∀ before call after, calls = before ++ call :: after → KeepsPrincipal (run config before).1 call

theorem converged_run (hdistinct : Distinct config calls) (hkeeps : KeepsPrincipals config calls) :
    Converged config (run config calls).1 (run config calls).2 := by
  induction calls using List.reverseRecOn with
  | nil =>
    have hnobody : ∀ member, ¬Has (run config ([] : List (Call σ))).1.rooms member := by
      rintro member ⟨room, hroom, -⟩
      cases hroom
    constructor
    case indexed =>
      refine ⟨fun _ _ hroom => ?_, fun _ _ _ _ hroom => ?_, fun _ _ hmembers => ?_,
        fun _ _ _ hmembers => ?_, fun member => ?_⟩
      · cases hroom
      · cases hroom
      · cases hmembers
      · cases hmembers
      · constructor
        · intro hmember
          exact absurd hmember (hnobody member)
        · rintro ⟨members, hmembers, -⟩
          cases hmembers
    case identified =>
      exact ⟨fun member hmember => absurd hmember (hnobody member),
        fun member _ hmember => absurd hmember (hnobody member)⟩
    case accepted =>
      intro record hrecord
      cases hrecord
    case latest => exact fun member hmember => absurd hmember (hnobody member)
    case sees => exact fun member hmember => absurd hmember (hnobody member)
  | append_singleton calls call ih =>
    have hdrawn := drawn_le_apply config (run config calls).1 call
    rw [Distinct, run_concat] at hdistinct
    rw [run_concat]
    have hbefore : Converged config (run config calls).1 (run config calls).2 := by
      apply ih
      · exact fun m n hlt hn => hdistinct m n hlt (hn.trans_le hdrawn)
      · intro before earlier after hsplit
        apply hkeeps before earlier (after ++ [call])
        rw [hsplit, List.append_assoc, List.cons_append]
    exact hbefore.apply call (hkeeps calls call [] rfl) hdistinct

/-- The indices list the same memberships and keep nothing empty, and each member sees the latest
accepted record of every other of its room, by growing revisions. -/
structure Converges (st : PresenceRooms σ) (events : List (Event σ)) : Prop where
  sameMembers : ∀ member, Has st.rooms member ↔ Lists st.membersByConnection member
  roomNonempty : ∀ key room, st.rooms.get key = some room → room.entries ≠ []
  connectionNonempty : ∀ id members, st.membersByConnection.get id = some members →
    members.items ≠ []
  view : ∀ member, Has st.rooms member →
    ∃ view, viewOf (inbox member.participantId events) = some view ∧ ∀ id record,
      view.get id = some record ↔ latestRecord id events = some record ∧
        ∃ other, Has st.rooms other ∧ other.roomKey = member.roomKey ∧ other ≠ member ∧
          other.participantId = id
  increasing : ∀ member, Has st.rooms member → ∀ id,
    (revisionsOf id (inbox member.participantId events)).Pairwise (· < ·)

/-- Presence converges in every run without a join that gives a member that has published another
principal. -/
theorem presence_converges (config : Config) (calls : List (Call σ))
    (hdistinct : Distinct config calls) (hkeeps : KeepsPrincipals config calls) :
    Converges (run config calls).1 (run config calls).2 := by
  have h := converged_run hdistinct hkeeps
  constructor
  case sameMembers => exact h.indexed.same
  case roomNonempty => exact h.indexed.roomNonempty
  case connectionNonempty => exact h.indexed.connectionNonempty
  case view =>
    intro member hmember
    obtain ⟨view, hview, hget⟩ := (h.sees member hmember).view
    refine ⟨view, hview, fun id record => ?_⟩
    rw [hget]
    constructor
    · rintro ⟨other, hother, hkey, hne, rfl, hrecord⟩
      exact ⟨(h.latest other hother).trans hrecord, other, hother, hkey, hne, rfl⟩
    · rintro ⟨hrecord, other, hother, hkey, hne, rfl⟩
      exact ⟨other, hother, hkey, hne, rfl, (h.latest other hother).symm.trans hrecord⟩
  case increasing => exact fun member hmember => (h.sees member hmember).increasing

end Converges

/-- Identifiers that are told apart by their length. -/
def countedIdentifiers : Config := ⟨fun n => ⟨List.replicate (n + 1) 48⟩, fun _ => 100, id⟩

theorem countedIdentifiers_injective {m n : ℕ} (h : m < n) :
    countedIdentifiers.randomUUID m ≠ countedIdentifiers.randomUUID n := by
  intro hsame
  have hlength := congrArg (fun id : JsString => id.units.length) hsame
  simp only [countedIdentifiers, List.length_replicate] at hlength
  omega

def joinAs (sessionId : JsString) (principal : Option JsString) : Call Unit :=
  .join ⟨"did:key:space", "room", "connection", sessionId, principal, ()⟩

def publishAs (sessionId : JsString) (revision : ℚ) : Call Unit :=
  .publish ⟨"did:key:space", "room", "connection", sessionId, .finite revision, "Alice", []⟩

/-- Two members publish, and the first joins again as it was and publishes once more. -/
def republished : List (Call Unit) :=
  [joinAs "alice" (some "did:key:alice"), joinAs "bob" (some "did:key:bob"), publishAs "alice" 1,
    publishAs "bob" 1, joinAs "alice" (some "did:key:alice"), publishAs "alice" 2]

theorem presence_converges_published :
    Converges (run countedIdentifiers republished).1 (run countedIdentifiers republished).2 ∧
    ∃ view, viewOf (inbox "00" (run countedIdentifiers republished).2) = some view ∧
      view.get "0" = some ⟨"0", some "did:key:alice", 2, "Alice", []⟩ := by
  have hkeeps : ∀ i, (h : i < republished.length) →
      KeepsPrincipal (run countedIdentifiers (republished.take i)).1 republished[i] := by
    decide +kernel
  have hconverges : Converges (run countedIdentifiers republished).1
      (run countedIdentifiers republished).2 := by
    apply presence_converges
    · intro m n hlt _
      exact countedIdentifiers_injective hlt
    · intro before call after hsplit
      have hkept := hkeeps before.length (by rw [hsplit]; simp)
      simp only [hsplit, List.take_left, List.getElem_append_right (le_refl _), Nat.sub_self,
        List.getElem_cons_zero] at hkept
      exact hkept
  have hbob : Has (run countedIdentifiers republished).1.rooms
      ⟨"00", roomKey "did:key:space" "room", "connection", "bob"⟩ := by
    rw [has_iff_bind]
    decide +kernel
  have halice : Has (run countedIdentifiers republished).1.rooms
      ⟨"0", roomKey "did:key:space" "room", "connection", "alice"⟩ := by
    rw [has_iff_bind]
    decide +kernel
  have hlatest : latestRecord "0" (run countedIdentifiers republished).2 =
      some ⟨"0", some "did:key:alice", 2, "Alice", []⟩ := by
    decide +kernel
  obtain ⟨view, hview, hget⟩ := hconverges.view _ hbob
  exact ⟨hconverges, view, hview, (hget "0" _).2 ⟨hlatest, _, halice, rfl, by decide, rfl⟩⟩

/-- A member that has published joins again once its session has a principal, and then another
member joins. -/
def rejoined : List (Call Unit) :=
  [joinAs "alice" none, publishAs "alice" 1, joinAs "alice" (some "did:key:alice"),
    joinAs "carol" (some "did:key:carol")]

theorem rejoined_diverges :
    ¬Converges (run countedIdentifiers rejoined).1 (run countedIdentifiers rejoined).2 := by
  intro h
  have hcarol : Has (run countedIdentifiers rejoined).1.rooms
      ⟨"00", roomKey "did:key:space" "room", "connection", "carol"⟩ := by
    rw [has_iff_bind]
    decide +kernel
  obtain ⟨view, hview, hget⟩ := h.view _ hcarol
  have hshown : (viewOf (inbox "00" (run countedIdentifiers rejoined).2)).bind (fun view =>
      view.get "0") = some ⟨"0", some "did:key:alice", 1, "Alice", []⟩ := by
    decide +kernel
  rw [hview, Option.bind_some, hget] at hshown
  have hlatest : latestRecord "0" (run countedIdentifiers rejoined).2 =
      some ⟨"0", none, 1, "Alice", []⟩ := by
    decide +kernel
  rw [hlatest] at hshown
  exact absurd hshown.1 (by decide)

end Presence
