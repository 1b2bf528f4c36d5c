import Mathlib.Logic.Function.Basic
import CommonFabric.Invites
import CommonFabric.JsMap
import CommonFabric.JsSet
import CommonFabric.Utf8Text

/-!
# Presence rooms

A server's presence rooms: a room holds one membership for each session on each connection, and
remembers each member's latest record. Joining answers with the records of the others; publishing
and leaving are pushed to them.
-/

namespace Presence

open Bytes (encodeText)
open Utf8 (codePoints)

def MAX_PRESENCE_ROOM_MEMBERS : ℕ := 128

def MAX_PRESENCE_NAME_CODE_POINTS : ℕ := 80

def MAX_PRESENCE_NAME_BYTES : ℕ := 256

def MAX_PRESENCE_FACETS : ℕ := 8

def MAX_PRESENCE_PUBLICATION_BYTES : ℕ := 8 * 1024

abbrev PresenceFacets := List (JsString × FabricValue)

structure PresencePublication where
  name : JsString
  facets : PresenceFacets
  deriving DecidableEq

structure PresenceRecord where
  participantId : JsString
  principal : Option JsString
  revision : ℤ
  name : JsString
  facets : PresenceFacets
  deriving DecidableEq

inductive PresenceMessage where
  | upsert (space sessionId room : JsString) (participant : PresenceRecord)
  | remove (space sessionId room participantId : JsString)
  deriving DecidableEq

/-- What rooms are run with: the random identifiers they draw, in order, the bytes that a
publication takes wire-encoded, and how an error quotes a name. -/
structure Config where
  randomUUID : ℕ → JsString
  encodedBytes : PresencePublication → ℕ
  quote : JsString → JsString

/-- What `trim` takes off. -/
def isTrimmed (u : UInt16) : Bool :=
  0x9 ≤ u && u ≤ 0xd || u = 0x20 || u = 0xa0 || u = 0x1680 || 0x2000 ≤ u && u ≤ 0x200a ||
    u = 0x2028 || u = 0x2029 || u = 0x202f || u = 0x205f || u = 0x3000 || u = 0xfeff

def hasInvalidNameCodePoint (value : JsString) : Bool :=
  (codePoints value.units).any fun point =>
    point ≤ 0x1f || 0x7f ≤ point && point ≤ 0x9f || 0xd800 ≤ point && point ≤ 0xdfff

/-- `facetNamePattern`. -/
def isFacetName (name : JsString) : Bool :=
  match name.units with
  | [] => false
  | first :: rest =>
    0x61 ≤ first && first ≤ 0x7a && rest.length ≤ 31 &&
      rest.all fun u => 0x61 ≤ u && u ≤ 0x7a || 0x30 ≤ u && u ≤ 0x39 || u = 0x2d

/-- The first bound that a publication fails. -/
def validatePresencePublication (config : Config) (publication : PresencePublication) :
    Option JsString :=
  let name := publication.name.units
  if name.all isTrimmed || hasInvalidNameCodePoint publication.name ||
      MAX_PRESENCE_NAME_CODE_POINTS < (codePoints name).length ||
      MAX_PRESENCE_NAME_BYTES < (encodeText name).length then
    some "Presence name is empty, too long, or unprintable"
  else if MAX_PRESENCE_FACETS < publication.facets.length then
    some "Presence record holds more than 8 facets"
  else match publication.facets.find? fun facet => !isFacetName facet.1 with
    | some facet => some (JsString.concat ["Presence facet name is invalid: ", config.quote facet.1])
    | none =>
      if MAX_PRESENCE_PUBLICATION_BYTES < config.encodedBytes publication then
        some "Presence record exceeds 8192 bytes"
      else none

/-- One session's place in one room: the fields of a member that never change. -/
structure Membership where
  participantId : JsString
  roomKey : JsString
  connectionId : JsString
  sessionId : JsString
  deriving DecidableEq

/-- The fields of a member that change. `send` is what its pushes go through. -/
structure MemberFields (σ : Type) where
  principal : Option JsString
  revision : ℤ
  publication : Option PresencePublication
  send : σ
  deriving Inhabited

def roomKey (space room : JsString) : JsString := JsString.concat [space, ⟨[0]⟩, room]

def memberKey (connectionId sessionId : JsString) : JsString :=
  JsString.concat [connectionId, ⟨[0]⟩, sessionId]

abbrev Room := JsMap JsString Membership

/-- Both indices list members, whose changing fields are kept by participant id. -/
structure PresenceRooms (σ : Type) where
  rooms : JsMap JsString Room
  membersByConnection : JsMap JsString (JsSet Membership)
  fields : JsString → MemberFields σ
  drawn : ℕ

/-- What happens on a call: a session is answered, a record is accepted, a push is sent. -/
inductive Event (σ : Type) where
  | joined (participantId : JsString) (participants : List PresenceRecord)
  | published (participant : PresenceRecord)
  | sent (receiver : JsString) (via : σ) (message : PresenceMessage)

structure JoinInput (σ : Type) where
  space : JsString
  room : JsString
  connectionId : JsString
  sessionId : JsString
  principal : Option JsString
  send : σ

structure PublishInput where
  space : JsString
  room : JsString
  connectionId : JsString
  sessionId : JsString
  revision : JsNumber
  name : JsString
  facets : PresenceFacets

/-- The rooms after a call, what happened, and the message of the error it failed with, if any. -/
structure Outcome (σ : Type) where
  rooms : PresenceRooms σ
  events : List (Event σ)
  error : Option JsString

section Rooms

variable {σ : Type} (config : Config) (st : PresenceRooms σ)

def initial [Inhabited σ] : PresenceRooms σ := ⟨JsMap.empty, JsMap.empty, fun _ => default, 0⟩

def recordOf (member : Membership) : Option PresenceRecord :=
  let fields := st.fields member.participantId
  fields.publication.map fun publication =>
    ⟨member.participantId, fields.principal, fields.revision, publication.name, publication.facets⟩

/-- The members of a room but one. -/
def others (room : Room) (member : Membership) : List Membership :=
  room.values.filter fun other => other ≠ member

/-- A message sent to every member of a list. -/
def pushTo (members : List Membership) (message : Membership → PresenceMessage) :
    List (Event σ) :=
  members.map fun other =>
    .sent other.participantId (st.fields other.participantId).send (message other)

/-- The end of `join`, which answers a member with the records of the others. -/
def answerJoin (room : Room) (member : Membership) : Outcome σ :=
  ⟨st, [.joined member.participantId ((others room member).filterMap (recordOf st))], none⟩

def join (input : JoinInput σ) : Outcome σ :=
  let key := roomKey input.space input.room
  let opened := if st.rooms.has key then st.rooms else st.rooms.set key JsMap.empty
  let room := (opened.get key).getD JsMap.empty
  let ownKey := memberKey input.connectionId input.sessionId
  match room.get ownKey with
  | none =>
    if MAX_PRESENCE_ROOM_MEMBERS ≤ room.entries.length then
      ⟨{ st with rooms := opened }, [], some "Presence room is full"⟩
    else
      let participantId := config.randomUUID st.drawn
      let member : Membership := ⟨participantId, key, input.connectionId, input.sessionId⟩
      let members := (st.membersByConnection.get input.connectionId).getD JsSet.empty
      let room := room.set ownKey member
      answerJoin
        { rooms := opened.set key room
          membersByConnection := st.membersByConnection.set input.connectionId (members.add member)
          fields := Function.update st.fields participantId ⟨input.principal, 0, none, input.send⟩
          drawn := st.drawn + 1 } room member
  | some member =>
    let fields := { st.fields member.participantId with
      principal := input.principal
      send := input.send }
    answerJoin
      { st with rooms := opened, fields := Function.update st.fields member.participantId fields }
      room member

/-- `Number.isSafeInteger(revision)` and past the member's, with the integer. -/
def advances (revision : JsNumber) (last : ℤ) : Option ℤ :=
  (Invites.safeInteger? revision).filter fun revision => last < revision

def publish (input : PublishInput) : Outcome σ :=
  match st.rooms.get (roomKey input.space input.room) with
  | none => ⟨st, [], some "Presence room is not joined"⟩
  | some room =>
    match room.get (memberKey input.connectionId input.sessionId) with
    | none => ⟨st, [], some "Presence room is not joined"⟩
    | some member =>
      match advances input.revision (st.fields member.participantId).revision with
      | none => ⟨st, [], some "Presence revision does not advance"⟩
      | some revision =>
        match validatePresencePublication config ⟨input.name, input.facets⟩ with
        | some error => ⟨st, [], some error⟩
        | none =>
          let fields := { st.fields member.participantId with
            revision := revision
            publication := some ⟨input.name, input.facets⟩ }
          let st := { st with fields := Function.update st.fields member.participantId fields }
          let participant : PresenceRecord :=
            ⟨member.participantId, fields.principal, revision, input.name, input.facets⟩
          ⟨st, .published participant :: pushTo st (others room member) fun other =>
            .upsert input.space other.sessionId input.room participant, none⟩

/-- The space and the room of a room's key. -/
def splitRoomKey (key : JsString) : JsString × JsString :=
  let separator := key.units.takeWhile (· ≠ 0)
  (⟨separator⟩, ⟨key.units.drop (separator.length + 1)⟩)

/-- The members of a connection without one that leaves, and no entry where none is left. -/
def withoutMember (connections : JsMap JsString (JsSet Membership)) (member : Membership) :
    JsMap JsString (JsSet Membership) :=
  match connections.get member.connectionId with
  | none => connections
  | some members =>
    if (members.delete member).items.isEmpty then connections.delete member.connectionId
    else connections.set member.connectionId (members.delete member)

/-- `#end`. -/
def endMember (member : Membership) : PresenceRooms σ × List (Event σ) :=
  match st.rooms.get member.roomKey with
  | none => (st, [])
  | some room =>
    let room := room.delete (memberKey member.connectionId member.sessionId)
    let connections := withoutMember st.membersByConnection member
    if room.entries.isEmpty then
      ({ st with rooms := st.rooms.delete member.roomKey, membersByConnection := connections }, [])
    else
      let st := { st with
        rooms := st.rooms.set member.roomKey room
        membersByConnection := connections }
      if (st.fields member.participantId).publication.isNone then (st, [])
      else
        let place := splitRoomKey member.roomKey
        (st, pushTo st room.values fun other =>
          .remove place.1 other.sessionId place.2 member.participantId)

/-- One membership ended after another. -/
def endAll : List Membership → PresenceRooms σ → PresenceRooms σ × List (Event σ)
  | [], st => (st, [])
  | member :: members, st =>
    let ended := endMember st member
    let rest := endAll members ended.1
    (rest.1, ended.2 ++ rest.2)

def leave (space room connectionId sessionId : JsString) : PresenceRooms σ × List (Event σ) :=
  match (st.rooms.get (roomKey space room)).bind (·.get (memberKey connectionId sessionId)) with
  | none => (st, [])
  | some member => endMember st member

def leaveConnection (connectionId : JsString) : PresenceRooms σ × List (Event σ) :=
  match st.membersByConnection.get connectionId with
  | none => (st, [])
  | some members => endAll members.items st

def leaveSession (space sessionId connectionId : JsString) : PresenceRooms σ × List (Event σ) :=
  match st.membersByConnection.get connectionId with
  | none => (st, [])
  | some members =>
    endAll (members.items.filter fun member => member.sessionId = sessionId &&
      member.roomKey.startsWith (JsString.concat [space, ⟨[0]⟩])) st

end Rooms

inductive Call (σ : Type) where
  | join (input : JoinInput σ)
  | publish (input : PublishInput)
  | leave (space room connectionId sessionId : JsString)
  | leaveConnection (connectionId : JsString)
  | leaveSession (space sessionId connectionId : JsString)

section Run

variable {σ : Type} (config : Config)

def apply (st : PresenceRooms σ) : Call σ → PresenceRooms σ × List (Event σ)
  | .join input => ((join config st input).rooms, (join config st input).events)
  | .publish input => ((publish config st input).rooms, (publish config st input).events)
  | .leave space room connectionId sessionId => leave st space room connectionId sessionId
  | .leaveConnection connectionId => leaveConnection st connectionId
  | .leaveSession space sessionId connectionId => leaveSession st space sessionId connectionId

/-- The rooms after calls, with all that happened. -/
def run [Inhabited σ] (calls : List (Call σ)) : PresenceRooms σ × List (Event σ) :=
  calls.foldl (fun st call =>
    let applied := apply config st.1 call
    (applied.1, st.2 ++ applied.2)) (initial, [])

end Run

end Presence
