import CommonFabric.PresenceRooms

/-!
# The members of presence rooms

Who is in a room, by its index, and what each call makes of that. The two indices list the same
members, keep no empty entry, and give every member an identifier of its own.
-/

namespace Presence

/-- A member of its room. -/
def Has (rooms : JsMap JsString Room) (member : Membership) : Prop :=
  ∃ room, rooms.get member.roomKey = some room ∧
    room.get (memberKey member.connectionId member.sessionId) = some member

/-- A member that its connection lists. -/
def Lists (connections : JsMap JsString (JsSet Membership)) (member : Membership) : Prop :=
  ∃ members, connections.get member.connectionId = some members ∧ member ∈ members

structure Indexed (rooms : JsMap JsString Room)
    (connections : JsMap JsString (JsSet Membership)) : Prop where
  roomNonempty : ∀ key room, rooms.get key = some room → room.entries ≠ []
  placed : ∀ key room k member, rooms.get key = some room → room.get k = some member →
    member.roomKey = key ∧ memberKey member.connectionId member.sessionId = k
  connectionNonempty : ∀ id members, connections.get id = some members → members.items ≠ []
  owned : ∀ id members member, connections.get id = some members → member ∈ members →
    member.connectionId = id
  same : ∀ member, Has rooms member ↔ Lists connections member

/-- Every member has an identifier of its own, which was drawn. -/
structure Identified (config : Config) (rooms : JsMap JsString Room) (drawn : ℕ) : Prop where
  drawn : ∀ member, Has rooms member → ∃ n, n < drawn ∧ member.participantId = config.randomUUID n
  unique : ∀ member other, Has rooms member → Has rooms other →
    member.participantId = other.participantId → member = other

section Members

variable {config : Config} {rooms : JsMap JsString Room}
  {connections : JsMap JsString (JsSet Membership)} {room : Room} {key : JsString}
  {member other : Membership}

theorem mem_values (h : Indexed rooms connections) (hroom : rooms.get key = some room) :
    member ∈ room.values ↔ Has rooms member ∧ member.roomKey = key := by
  constructor
  · intro hmem
    obtain ⟨e, he, rfl⟩ := List.mem_map.1 hmem
    obtain ⟨hkey, hplace⟩ := h.placed key room e.1 e.2 hroom (JsMap.get_of_mem he)
    refine ⟨⟨room, by rw [hkey]; exact hroom, ?_⟩, hkey⟩
    rw [hplace]
    exact JsMap.get_of_mem he
  · rintro ⟨⟨room', hroom', hget⟩, rfl⟩
    rw [hroom, Option.some.injEq] at hroom'
    subst hroom'
    exact List.mem_map.2 ⟨_, JsMap.mem_of_get hget, rfl⟩

/-- Of the members of a room each has an identifier of its own. -/
theorem nodup_participantIds {drawn : ℕ} (h : Indexed rooms connections)
    (hids : Identified config rooms drawn) (hroom : rooms.get key = some room) :
    (room.values.map (·.participantId)).Nodup := by
  rw [JsMap.values, List.map_map]
  apply List.Nodup.map_on _ (List.Nodup.of_map _ room.nodup)
  intro e he e' he' hsame
  have hmem := (mem_values h hroom).1 (List.mem_map_of_mem (f := fun e : JsString × Membership => e.2) he)
  have hmem' := (mem_values h hroom).1
    (List.mem_map_of_mem (f := fun e : JsString × Membership => e.2) he')
  have heq : e.2 = e'.2 := hids.unique e.2 e'.2 hmem.1 hmem'.1 hsame
  have hplace := (h.placed key room e.1 e.2 hroom (JsMap.get_of_mem he)).2
  have hplace' := (h.placed key room e'.1 e'.2 hroom (JsMap.get_of_mem he')).2
  rw [heq] at hplace
  exact Prod.ext (hplace.symm.trans hplace') heq

theorem mem_others {members : Room} :
    other ∈ others members member ↔ other ∈ members.values ∧ other ≠ member := by
  rw [others, List.mem_filter, decide_eq_true_eq]

end Members

section Join

variable {config : Config} {rooms : JsMap JsString Room}
  {connections : JsMap JsString (JsSet Membership)} {key : JsString}
  {member other : Membership}

/-- The room that a member joins, as it is before. -/
def roomAt (rooms : JsMap JsString Room) (key : JsString) : Room := (rooms.get key).getD JsMap.empty

/-- The rooms with one more member. -/
def addRoom (rooms : JsMap JsString Room) (member : Membership) : JsMap JsString Room :=
  rooms.set member.roomKey ((roomAt rooms member.roomKey).set
    (memberKey member.connectionId member.sessionId) member)

def addConnection (connections : JsMap JsString (JsSet Membership)) (member : Membership) :
    JsMap JsString (JsSet Membership) :=
  connections.set member.connectionId
    (((connections.get member.connectionId).getD JsSet.empty).add member)

theorem has_addRoom
    (hnew : (roomAt rooms member.roomKey).get
      (memberKey member.connectionId member.sessionId) = none) :
    Has (addRoom rooms member) other ↔ other = member ∨ Has rooms other := by
  rw [Has, Has, addRoom]
  by_cases hkey : member.roomKey = other.roomKey
  · rw [← hkey, JsMap.get_set_self]
    by_cases hplace : memberKey member.connectionId member.sessionId =
        memberKey other.connectionId other.sessionId
    · constructor
      · rintro ⟨room, hroom, hget⟩
        cases hroom
        rw [← hplace, JsMap.get_set_self, Option.some.injEq] at hget
        exact .inl hget.symm
      · rintro (rfl | ⟨room, hroom, hget⟩)
        · exact ⟨_, rfl, JsMap.get_set_self _ _ _⟩
        · rw [roomAt, hroom, Option.getD_some, hplace, hget] at hnew
          cases hnew
    · have hne : other ≠ member := fun heq => hplace (by rw [heq])
      constructor
      · rintro ⟨room, hroom, hget⟩
        cases hroom
        rw [JsMap.get_set_other _ hplace] at hget
        cases hold : rooms.get member.roomKey with
        | none =>
          rw [roomAt, hold] at hget
          cases hget
        | some room =>
          rw [roomAt, hold] at hget
          exact .inr ⟨room, rfl, hget⟩
      · rintro (heq | ⟨room, hroom, hget⟩)
        · exact absurd heq hne
        · refine ⟨_, rfl, ?_⟩
          rw [JsMap.get_set_other _ hplace, roomAt, hroom]
          exact hget
  · rw [JsMap.get_set_other _ hkey]
    have hne : other ≠ member := fun heq => hkey (by rw [heq])
    constructor
    · intro hhas
      exact .inr hhas
    · rintro (heq | hhas)
      · exact absurd heq hne
      · exact hhas

theorem lists_addConnection :
    Lists (addConnection connections member) other ↔ other = member ∨ Lists connections other := by
  rw [Lists, Lists, addConnection]
  by_cases hid : member.connectionId = other.connectionId
  · rw [← hid, JsMap.get_set_self]
    cases hold : connections.get member.connectionId with
    | none =>
      constructor
      · rintro ⟨members, hmembers, hmem⟩
        cases hmembers
        rcases JsSet.mem_add.1 hmem with hmem | hmem
        · exact .inl hmem
        · exact absurd hmem (JsSet.not_mem_empty other)
      · rintro (heq | ⟨members, hmembers, -⟩)
        · exact ⟨_, rfl, JsSet.mem_add.2 (.inl heq)⟩
        · cases hmembers
    | some members =>
      constructor
      · rintro ⟨members', hmembers, hmem⟩
        cases hmembers
        rcases JsSet.mem_add.1 hmem with hmem | hmem
        · exact .inl hmem
        · exact .inr ⟨members, rfl, hmem⟩
      · rintro (heq | ⟨members', hmembers, hmem⟩)
        · exact ⟨_, rfl, JsSet.mem_add.2 (.inl heq)⟩
        · cases hmembers
          exact ⟨_, rfl, JsSet.mem_add.2 (.inr hmem)⟩
  · rw [JsMap.get_set_other _ hid]
    constructor
    · intro hlists
      exact .inr hlists
    · rintro (heq | hlists)
      · exact absurd (by rw [heq]) hid
      · exact hlists

theorem setEntries_setEntries {κ ν : Type} [DecidableEq κ] (k : κ) (v v' : ν)
    (entries : List (κ × ν)) : JsMap.setEntries k v' (JsMap.setEntries k v entries) =
      JsMap.setEntries k v' entries := by
  induction entries with
  | nil => simp [JsMap.setEntries]
  | cons e rest ih =>
    rw [JsMap.setEntries]
    by_cases hkey : e.1 = k
    · simp [JsMap.setEntries, hkey]
    · simp [JsMap.setEntries, hkey, ih]

theorem set_set {κ ν : Type} [DecidableEq κ] (m : JsMap κ ν) (k : κ) (v v' : ν) :
    (m.set k v).set k v' = m.set k v' := by
  simp only [JsMap.set, setEntries_setEntries]

theorem entries_set_ne_nil {κ ν : Type} [DecidableEq κ] (m : JsMap κ ν) (k : κ) (v : ν) :
    (m.set k v).entries ≠ [] :=
  List.ne_nil_of_mem (JsMap.mem_of_get (JsMap.get_set_self m k v))

theorem Indexed.add (h : Indexed rooms connections)
    (hnew : (roomAt rooms member.roomKey).get
      (memberKey member.connectionId member.sessionId) = none) :
    Indexed (addRoom rooms member) (addConnection connections member) where
  roomNonempty key room hroom := by
    rw [addRoom, JsMap.get_set] at hroom
    split at hroom
    · cases hroom
      exact entries_set_ne_nil _ _ _
    · exact h.roomNonempty key room hroom
  placed key room k placed hroom hget := by
    rw [addRoom, JsMap.get_set] at hroom
    split at hroom
    case isTrue hkey =>
      cases hroom
      rw [JsMap.get_set] at hget
      split at hget
      case isTrue hplace =>
        cases hget
        exact ⟨hkey, hplace⟩
      case isFalse =>
        cases hold : rooms.get member.roomKey with
        | none =>
          rw [roomAt, hold] at hget
          cases hget
        | some room =>
          rw [roomAt, hold] at hget
          exact hkey ▸ h.placed _ room k placed hold hget
    case isFalse => exact h.placed key room k placed hroom hget
  connectionNonempty id members hmembers := by
    rw [addConnection, JsMap.get_set] at hmembers
    split at hmembers
    · cases hmembers
      exact List.ne_nil_of_mem (JsSet.mem_items.2 (JsSet.mem_add.2 (.inl rfl)))
    · exact h.connectionNonempty id members hmembers
  owned id members owned hmembers hmem := by
    rw [addConnection, JsMap.get_set] at hmembers
    split at hmembers
    case isTrue hid =>
      cases hmembers
      rcases JsSet.mem_add.1 hmem with heq | hmem
      · rw [heq]
        exact hid
      · cases hold : connections.get member.connectionId with
        | none =>
          rw [hold] at hmem
          exact absurd hmem (JsSet.not_mem_empty owned)
        | some members =>
          rw [hold] at hmem
          exact hid ▸ h.owned _ members owned hold hmem
    case isFalse => exact h.owned id members owned hmembers hmem
  same other := by
    rw [has_addRoom hnew, lists_addConnection, h.same]

theorem Identified.add {drawn : ℕ} (h : Identified config rooms drawn)
    (hnew : (roomAt rooms member.roomKey).get
      (memberKey member.connectionId member.sessionId) = none)
    (hid : member.participantId = config.randomUUID drawn)
    (hfresh : ∀ n, n < drawn → config.randomUUID n ≠ config.randomUUID drawn) :
    Identified config (addRoom rooms member) (drawn + 1) where
  drawn other hother := by
    rcases (has_addRoom hnew).1 hother with rfl | hother
    · exact ⟨drawn, Nat.lt_succ_self drawn, hid⟩
    · obtain ⟨n, hn, hdrawn⟩ := h.drawn other hother
      exact ⟨n, by omega, hdrawn⟩
  unique first second hfirst hsecond hsame := by
    have hapart : ∀ other, Has rooms other → other.participantId ≠ member.participantId := by
      intro other hother hids
      obtain ⟨n, hn, hdrawn⟩ := h.drawn other hother
      rw [hdrawn, hid] at hids
      exact hfresh n hn hids
    rcases (has_addRoom hnew).1 hfirst with hfirst' | hfirst'
    · rcases (has_addRoom hnew).1 hsecond with hsecond' | hsecond'
      · exact hfirst'.trans hsecond'.symm
      · exact absurd (hsame.symm.trans (by rw [hfirst'])) (hapart second hsecond')
    · rcases (has_addRoom hnew).1 hsecond with hsecond' | hsecond'
      · exact absurd (hsame.trans (by rw [hsecond'])) (hapart first hfirst')
      · exact h.unique first second hfirst' hsecond' hsame

end Join

section Leave

variable {config : Config} {rooms : JsMap JsString Room}
  {connections : JsMap JsString (JsSet Membership)} {room : Room} {member other : Membership}

/-- The rooms without a member of a room, and no entry where none is left. -/
def removeRoom (rooms : JsMap JsString Room) (room : Room) (member : Membership) :
    JsMap JsString Room :=
  if (room.delete (memberKey member.connectionId member.sessionId)).entries.isEmpty then
    rooms.delete member.roomKey
  else rooms.set member.roomKey (room.delete (memberKey member.connectionId member.sessionId))

theorem get_of_entries_isEmpty {κ ν : Type} [DecidableEq κ] {m : JsMap κ ν}
    (h : m.entries.isEmpty = true) (k : κ) : m.get k = none := by
  rw [JsMap.get, List.isEmpty_iff.1 h]
  rfl

/-- What is left of a room by its key. -/
theorem get_removeRoom (key : JsString) :
    ((removeRoom rooms room member).get key).bind (fun left => left.get k) =
      if member.roomKey = key then
        (room.delete (memberKey member.connectionId member.sessionId)).get k
      else (rooms.get key).bind fun left => left.get k := by
  rw [removeRoom]
  by_cases hkey : member.roomKey = key
  · subst hkey
    rw [if_pos rfl]
    split
    case isTrue hempty =>
      rw [JsMap.get_delete_self, get_of_entries_isEmpty hempty]
      rfl
    case isFalse => rw [JsMap.get_set_self, Option.bind_some]
  · rw [if_neg hkey]
    split
    · rw [JsMap.get_delete_other _ hkey]
    · rw [JsMap.get_set_other _ hkey]

theorem has_iff_bind : Has rooms member ↔ (rooms.get member.roomKey).bind
    (fun room => room.get (memberKey member.connectionId member.sessionId)) = some member := by
  rw [Has, Option.bind_eq_some_iff]

theorem has_removeRoom (hroom : rooms.get member.roomKey = some room)
    (hget : room.get (memberKey member.connectionId member.sessionId) = some member) :
    Has (removeRoom rooms room member) other ↔ other ≠ member ∧ Has rooms other := by
  rw [has_iff_bind, has_iff_bind, get_removeRoom]
  by_cases hkey : member.roomKey = other.roomKey
  · rw [if_pos hkey, ← hkey, hroom, Option.bind_some, JsMap.get_delete]
    by_cases hplace : memberKey member.connectionId member.sessionId =
        memberKey other.connectionId other.sessionId
    · rw [if_pos hplace, ← hplace, hget]
      constructor
      · intro hnone
        cases hnone
      · rintro ⟨hne, hsame⟩
        exact absurd (Option.some.inj hsame).symm hne
    · rw [if_neg hplace]
      have hne : other ≠ member := fun heq => hplace (by rw [heq])
      simp [hne]
  · rw [if_neg hkey]
    have hne : other ≠ member := fun heq => hkey (by rw [heq])
    simp [hne]

theorem lists_withoutMember (h : Indexed rooms connections) (hhas : Has rooms member) :
    Lists (withoutMember connections member) other ↔ other ≠ member ∧ Lists connections other := by
  obtain ⟨members, hmembers, hmem⟩ := (h.same member).1 hhas
  rw [Lists, Lists, withoutMember, hmembers]
  simp only
  by_cases hid : member.connectionId = other.connectionId
  · rw [← hid, hmembers]
    split
    case isTrue hempty =>
      rw [JsMap.get_delete_self]
      constructor
      · rintro ⟨_, hnone, -⟩
        cases hnone
      · rintro ⟨hne, members', hsame, hother⟩
        cases hsame
        have hleft : other ∈ members.delete member := JsSet.mem_delete.2 ⟨hne, hother⟩
        rw [← JsSet.mem_items, List.isEmpty_iff.1 hempty] at hleft
        cases hleft
    case isFalse =>
      rw [JsMap.get_set_self]
      constructor
      · rintro ⟨members', hsame, hother⟩
        cases hsame
        exact ⟨(JsSet.mem_delete.1 hother).1, members, rfl, (JsSet.mem_delete.1 hother).2⟩
      · rintro ⟨hne, members', hsame, hother⟩
        cases hsame
        exact ⟨_, rfl, JsSet.mem_delete.2 ⟨hne, hother⟩⟩
  · have hne : other ≠ member := fun heq => hid (by rw [heq])
    have hkept : (if (members.delete member).items.isEmpty = true then
        connections.delete member.connectionId
      else connections.set member.connectionId (members.delete member)).get other.connectionId =
        connections.get other.connectionId := by
      split
      · exact JsMap.get_delete_other _ hid
      · exact JsMap.get_set_other _ hid _
    rw [hkept]
    simp [hne]

/-- What a connection has after a member has left: what is left of it, or what it had. -/
theorem get_withoutMember {listed members : JsSet Membership} {id : JsString}
    (hlisted : connections.get member.connectionId = some listed)
    (h : (withoutMember connections member).get id = some members) :
    (member.connectionId = id ∧ listed.delete member = members ∧ members.items ≠ []) ∨
      connections.get id = some members := by
  rw [withoutMember, hlisted] at h
  simp only at h
  split at h
  case isTrue =>
    rw [JsMap.get_delete] at h
    split at h
    · cases h
    · exact .inr h
  case isFalse hsome =>
    rw [JsMap.get_set] at h
    split at h
    case isTrue hid =>
      cases h
      exact .inl ⟨hid, rfl, by simpa using hsome⟩
    case isFalse => exact .inr h

theorem Indexed.remove (h : Indexed rooms connections)
    (hroom : rooms.get member.roomKey = some room)
    (hget : room.get (memberKey member.connectionId member.sessionId) = some member) :
    Indexed (removeRoom rooms room member) (withoutMember connections member) where
  roomNonempty key left hleft := by
    rw [removeRoom] at hleft
    split at hleft
    case isTrue =>
      rw [JsMap.get_delete] at hleft
      split at hleft
      · cases hleft
      · exact h.roomNonempty key left hleft
    case isFalse hsome =>
      rw [JsMap.get_set] at hleft
      split at hleft
      · cases hleft
        simpa using hsome
      · exact h.roomNonempty key left hleft
  placed key left k placed hleft hplaced := by
    have hbind : ((removeRoom rooms room member).get key).bind (fun left => left.get k) =
        some placed := by rw [hleft, Option.bind_some, hplaced]
    rw [get_removeRoom] at hbind
    split at hbind
    case isTrue hkey =>
      rw [JsMap.get_delete] at hbind
      split at hbind
      · cases hbind
      · exact hkey ▸ h.placed _ room k placed hroom hbind
    case isFalse =>
      obtain ⟨before, hbefore, hplaced⟩ := Option.bind_eq_some_iff.1 hbind
      exact h.placed key before k placed hbefore hplaced
  connectionNonempty id members hmembers := by
    obtain ⟨listed, hlisted, -⟩ := (h.same member).1 ⟨room, hroom, hget⟩
    rcases get_withoutMember hlisted hmembers with ⟨-, -, hsome⟩ | hmembers
    · exact hsome
    · exact h.connectionNonempty id members hmembers
  owned id members owned hmembers hmem := by
    obtain ⟨listed, hlisted, -⟩ := (h.same member).1 ⟨room, hroom, hget⟩
    rcases get_withoutMember hlisted hmembers with ⟨rfl, rfl, -⟩ | hmembers
    · exact h.owned _ listed owned hlisted (JsSet.mem_delete.1 hmem).2
    · exact h.owned id members owned hmembers hmem
  same other := by
    rw [has_removeRoom hroom hget, lists_withoutMember h ⟨room, hroom, hget⟩, h.same]

theorem Identified.remove {drawn : ℕ} (h : Identified config rooms drawn)
    (hroom : rooms.get member.roomKey = some room)
    (hget : room.get (memberKey member.connectionId member.sessionId) = some member) :
    Identified config (removeRoom rooms room member) drawn where
  drawn other hother := h.drawn other ((has_removeRoom hroom hget).1 hother).2
  unique first second hfirst hsecond :=
    h.unique first second ((has_removeRoom hroom hget).1 hfirst).2
      ((has_removeRoom hroom hget).1 hsecond).2

end Leave

end Presence
