import CommonFabric.JsMap
import CommonFabric.Utf8Order

/-!
# Collection indexes

An index lists the occurrences of a collection by the key each of them has. It keeps the
members of every bucket as they come, and publishes beside them what a reader of the bucket
sees: the element of its least occurrence, or all its elements in the order of the occurrences.
Two caches, one of the least occurrences and one of the orders, save it the search, and either
may be missing whenever an occurrence changes.
-/

/-- A typed routing key. A number is finite here, and its zero has no sign. -/
inductive CollectionKeyIdentity where
  | boolean (value : Bool)
  | number (value : ℚ)
  | string (value : JsString)
  | cell (value : JsString)
  deriving DecidableEq

namespace CollectionKeyIdentity

def keyDomainOrder : CollectionKeyIdentity → Int
  | .boolean _ => 0
  | .number _ => 1
  | .string _ => 2
  | .cell _ => 3

def compareCollectionKeys : CollectionKeyIdentity → CollectionKeyIdentity → Int
  | .boolean left, .boolean right => (left.toNat : Int) - right.toNat
  | .number left, .number right => if left < right then -1 else if right < left then 1 else 0
  | .string left, .string right => Utf8.utf8Compare left right
  | .cell left, .cell right => Utf8.utf8Compare left right
  | left, right => left.keyDomainOrder - right.keyDomainOrder

end CollectionKeyIdentity

inductive IndexMode where
  | group
  | key
  deriving DecidableEq

/-- A key as `resolveCollectionKey` leaves it, a cell by the link it resolves to. -/
inductive CollectionKey (Link : Type) where
  | boolean (value : Bool)
  | number (value : ℚ)
  | string (value : JsString)
  | cell (link : Link)

structure IndexMember (Link : Type) where
  occurrence : JsString
  element : Link
  deriving DecidableEq

structure OccupiedKey (Link : Type) where
  identity : CollectionKeyIdentity
  cell : Option Link

structure IndexAssignment where
  bucket : JsString
  occurrence : JsString
  deriving DecidableEq

/-- What a reader finds in a bucket. -/
inductive PublishedBucket (Link : Type) where
  | single (element : Link)
  | group (elements : List Link)
  deriving DecidableEq

/-- The durable records of an index, its two caches, and the buckets it publishes. -/
structure CollectionIndex (Link : Type) where
  assignments : JsMap JsString IndexAssignment
  members : JsMap JsString (JsMap JsString (IndexMember Link))
  occupied : JsMap JsString (OccupiedKey Link)
  winners : Option (JsMap JsString JsString)
  orders : Option (JsMap JsString (List JsString))
  buckets : JsMap JsString (PublishedBucket Link)

namespace CollectionIndex

open CollectionKeyIdentity Utf8

variable {Link : Type}

def empty : CollectionIndex Link := ⟨.empty, .empty, .empty, none, none, .empty⟩

/-- `firstMember`, over the entries of a bucket's record. -/
def firstMember : Option (JsString × IndexMember Link) → List (JsString × IndexMember Link) →
    Option (JsString × IndexMember Link)
  | winner, [] => winner
  | none, entry :: rest => firstMember (some entry) rest
  | some winner, entry :: rest =>
    firstMember (if utf8Compare entry.2.occurrence winner.2.occurrence < 0 then some entry
      else some winner) rest

/-- The members of a bucket, none where it has no record. -/
def membersOf (s : CollectionIndex Link) (bucket : JsString) :
    JsMap JsString (IndexMember Link) := (s.members.get bucket).getD .empty

def firstMemberId (s : CollectionIndex Link) (bucket : JsString) : Option JsString :=
  (firstMember none (s.membersOf bucket).entries).map (·.1)

def setMember (s : CollectionIndex Link) (bucket memberId : JsString) (member : IndexMember Link) :
    CollectionIndex Link :=
  { s with members := s.members.set bucket ((s.membersOf bucket).set memberId member) }

/-- Deleting a slot below a record that is not there does nothing. -/
def deleteMember (s : CollectionIndex Link) (bucket memberId : JsString) : CollectionIndex Link :=
  match s.members.get bucket with
  | none => s
  | some members => { s with members := s.members.set bucket (members.delete memberId) }

/-- The cached winner of a bucket, and where there is none the one its members give. -/
def currentWinner (s : CollectionIndex Link) (bucket : JsString) (wasOccupied : Bool) :
    Option JsString :=
  match (s.winners.getD .empty).get bucket with
  | some winner => some winner
  | none => if wasOccupied then s.firstMemberId bucket else none

/-- Whether a member takes a bucket from its winner. It throws where the winner is no member. -/
def takes (s : CollectionIndex Link) (bucket memberId : JsString) (member : IndexMember Link) :
    Option JsString → Option Bool
  | none => some true
  | some winner =>
    if winner = memberId then some true
    else ((s.membersOf bucket).get winner).map fun held =>
      decide (utf8Compare member.occurrence held.occurrence < 0)

/-- The bucket as it is published once it has a winner. -/
def publishWinner (s : CollectionIndex Link) (bucket memberId winner : JsString)
    (previousWinner : Option JsString) (member : Option (IndexMember Link)) :
    Option (CollectionIndex Link) :=
  let s := { s with winners := some ((s.winners.getD .empty).set bucket winner) }
  let isMember := member.isSome && decide (winner = memberId)
  if some winner ≠ previousWinner || isMember || !s.buckets.has bucket then do
    let selected ← if isMember then member else (s.membersOf bucket).get winner
    return { s with buckets := s.buckets.set bucket (.single selected.element) }
  else some s

/-- The members after a change of one of them. -/
def changedMembers (s : CollectionIndex Link) (bucket memberId : JsString) :
    Option (IndexMember Link) → CollectionIndex Link
  | some entry => s.setMember bucket memberId entry
  | none => s.deleteMember bucket memberId

/-- The winner once the members have changed. -/
def nextWinner (s : CollectionIndex Link) (bucket memberId : JsString)
    (member : Option (IndexMember Link)) (previousWinner : Option JsString) :
    Option (Option JsString) :=
  match member with
  | some entry => (s.takes bucket memberId entry previousWinner).map fun takes =>
      if takes then some memberId else previousWinner
  | none => some
      (if previousWinner = some memberId then s.firstMemberId bucket else previousWinner)

/-- `updateUniqueBucket`, with whether the bucket is occupied now. -/
def updateUniqueBucket (s : CollectionIndex Link) (bucket memberId : JsString)
    (member : Option (IndexMember Link)) (wasOccupied : Bool) :
    Option (CollectionIndex Link × Bool) := do
  let previousWinner := s.currentWinner bucket wasOccupied
  let s := s.changedMembers bucket memberId member
  match ← s.nextWinner bucket memberId member previousWinner with
  | none =>
    some ({ s with
      winners := some ((s.winners.getD .empty).delete bucket)
      members := s.members.delete bucket
      buckets := s.buckets.delete bucket }, false)
  | some winner =>
    (s.publishWinner bucket memberId winner previousWinner member).map fun s => (s, true)

/-- The binary search of `updateGroupBucket`. -/
def lowerBound (order : List JsString) (occurrence : JsString) (low high : Nat) : Nat :=
  if h : low < high then
    let middle := (low + high) / 2
    if utf8Compare (order.getD middle "") occurrence < 0 then
      lowerBound order occurrence (middle + 1) high
    else lowerBound order occurrence low middle
  else low
termination_by high - low

/-- `splice(start, deleteCount, ...items)`. -/
def splice {α : Type} (xs : List α) (start deleteCount : Nat) (items : List α) : List α :=
  xs.take start ++ items ++ xs.drop (start + deleteCount)

/-- The order and the group of a bucket after one of its occurrences has changed, edited in
place where the cache goes with the group and built from the members otherwise. -/
def updatedGroup (s : CollectionIndex Link) (bucket : JsString)
    (previousOrder : Option (List JsString)) (previousGroup : Option (PublishedBucket Link))
    (occurrence : JsString) (member : Option (IndexMember Link)) : List JsString × List Link :=
  let rebuilt :=
    let sorted := sortById IndexMember.occurrence (s.membersOf bucket).values
    (sorted.map (·.occurrence), sorted.map (·.element))
  match previousOrder, previousGroup with
  | some order, some (.group group) =>
    if order.length = group.length then
      let low := lowerBound order occurrence 0 order.length
      let present := decide (order[low]? = some occurrence)
      match member with
      | some member =>
        (splice order low present.toNat [occurrence], splice group low present.toNat [member.element])
      | none => if present then (splice order low 1 [], splice group low 1 []) else (order, group)
    else rebuilt
  | _, _ => rebuilt

def updateGroupBucket (s : CollectionIndex Link) (bucket memberId occurrence : JsString)
    (member : Option (IndexMember Link)) : CollectionIndex Link × Bool :=
  let previousOrder := (s.orders.getD .empty).get bucket
  let previousGroup := s.buckets.get bucket
  let s := s.changedMembers bucket memberId member
  let (order, group) := s.updatedGroup bucket previousOrder previousGroup occurrence member
  if order.length = 0 then
    ({ s with
      orders := some ((s.orders.getD .empty).delete bucket)
      members := s.members.delete bucket
      buckets := s.buckets.delete bucket }, false)
  else
    ({ s with
      orders := some ((s.orders.getD .empty).set bucket order)
      buckets := s.buckets.set bucket (.group group) }, true)

/-- The bucket after one of its occurrences has changed, with whether it is occupied now. -/
def updateBucket (s : CollectionIndex Link) (mode : IndexMode) (bucket memberId occurrence : JsString)
    (member : Option (IndexMember Link)) (wasOccupied : Bool) :
    Option (CollectionIndex Link × Bool) :=
  match mode with
  | .key => s.updateUniqueBucket bucket memberId member wasOccupied
  | .group => some (s.updateGroupBucket bucket memberId occurrence member)

section

variable (hashStringOf : JsString → JsString) (collectionKeyBucket : CollectionKeyIdentity → JsString)
  (dedupKey : Link → JsString)

/-- The identity of a resolved key. -/
def identityOf : CollectionKey Link → CollectionKeyIdentity
  | .boolean value => .boolean value
  | .number value => .number value
  | .string value => .string value
  | .cell link => .cell (dedupKey link)

def occupiedKey (key : CollectionKey Link) : OccupiedKey Link :=
  ⟨identityOf dedupKey key, match key with
    | .cell link => some link
    | _ => none⟩

/-- One bucket of `maintainCollectionIndexMembership`. A bucket that fills without a key
throws. -/
def maintainBucket (s : CollectionIndex Link) (mode : IndexMode) (occurrence : JsString)
    (key : Option (CollectionKey Link)) (element : Link) (bucket : JsString) :
    Option (CollectionIndex Link) := do
  let memberId := hashStringOf occurrence
  let next := key.map fun key => collectionKeyBucket (identityOf dedupKey key)
  let member := if some bucket = next then some ⟨occurrence, element⟩ else none
  let wasOccupied := s.occupied.has bucket
  let (s, isOccupied) ← s.updateBucket mode bucket memberId occurrence member wasOccupied
  if wasOccupied = isOccupied then return s
  else if isOccupied then do
    let key ← key
    return { s with occupied := s.occupied.set bucket (occupiedKey dedupKey key) }
  else return { s with occupied := s.occupied.delete bucket }

def maintainCollectionIndexMembership (s : CollectionIndex Link) (mode : IndexMode)
    (occurrence : JsString) (key : Option (CollectionKey Link)) (element : Link) :
    Option (CollectionIndex Link) := do
  let memberId := hashStringOf occurrence
  let next := key.map fun key => collectionKeyBucket (identityOf dedupKey key)
  let previous := (s.assignments.get memberId).map (·.bucket)
  let affected := if previous = next then [previous] else [previous, next]
  let s ← (affected.filterMap id).foldlM
    (fun s bucket => s.maintainBucket hashStringOf collectionKeyBucket dedupKey mode occurrence key
      element bucket) s
  match next with
  | none => return { s with assignments := s.assignments.delete memberId }
  | some bucket =>
    return { s with assignments := s.assignments.set memberId ⟨bucket, occurrence⟩ }

end

/-- `readCollectionIndexKeys`, before it takes each entry to the value it stands for. -/
def readCollectionIndexKeys (s : CollectionIndex Link) : List (OccupiedKey Link) :=
  s.occupied.values.mergeSort fun a b => decide (compareCollectionKeys a.identity b.identity ≤ 0)

end CollectionIndex
