import CommonFabric.EventAppendQueue
import CommonFabric.Checked

/-!
# The durable outbox of a space

The rows of event appends to other spaces, which a wave stores and a drain delivers one after
the other: a row is deleted when its target processed it, or refused it for good and the
notice of that was written. What the target does, the answer, the notice and the deletion are
steps of their own, with a crash possible between any two.
-/

namespace AppendOutbox

open EventAppendQueue (StreamLinkRef)

/-- The event whose handler emitted an append. -/
structure SourceEvent where
  sidecarId : EntityId
  eventId : JsString
  deriving DecidableEq

structure OutboxAppendRow where
  targetSpace : JsString
  targetStream : EntityId
  targetStreamLink : Option StreamLinkRef
  eventId : JsString
  payload : FabricValue
  actingPrincipal : Option JsString
  actingSession : Option JsString
  sessionlessSpaceScope : Bool
  capabilityRef : JsString
  sourceEvent : Option SourceEvent
  deriving DecidableEq

structure PendingOutboxRow extends OutboxAppendRow where
  branch : BranchName
  /-- The key of the table, which a later row can have again. -/
  rowId : Nat
  createdSeq : Nat
  /-- The row's place in the order of insertion, which the table does not keep. -/
  serial : Nat
  deriving DecidableEq

abbrev Row := PendingOutboxRow

structure DeliveryFailure where
  eventId : JsString
  targetSpace : JsString
  reason : JsString
  deriving DecidableEq

/-- An entry of a source stream's document, as far as a notice reads it. -/
structure SourceEntry where
  eventId : Option JsString
  deliveryFailures : List DeliveryFailure
  deriving DecidableEq

/-- An event the target accepted, with the row it came from when it came from here. -/
structure Accepted where
  targetSpace : JsString
  targetStream : EntityId
  eventId : JsString
  row : Option Row
  deriving DecidableEq

/-- What a failed send throws. -/
inductive DeliveryError where
  | protocol (message : JsString)
  | served (code message : JsString)
  | deletedSpace (message : JsString)
  | other (message : JsString)

namespace DeliveryError

def describe : DeliveryError → JsString
  | .protocol message => message
  | .served _ message => message
  | .deletedSpace message => message
  | .other message => message

/-- A refusal for good. All else is a failure in transport. -/
def isRefusal : DeliveryError → Bool
  | .protocol _ => true
  | .served code _ => code = "refused" || code = "payload-too-large"
  | .deletedSpace _ => true
  | .other _ => false

end DeliveryError

structure Options where
  /-- The space whose outbox this is; an outbox may be built without one. -/
  space : Option JsString
  /-- Whether appends go to each target's owner. -/
  routed : Bool

/-- Where a drain stands, with the rows it has still to do. -/
inductive Drain where
  | none
  | ready (rows : List Row)
  /-- The row is sent, and its target has processed it or not. -/
  | sending (row : Row) (rest : List Row) (processed : Bool)
  | acknowledged (row : Row) (rest : List Row)
  | refused (row : Row) (rest : List Row) (reason : JsString)
  | noticed (row : Row) (rest : List Row)

structure State where
  table : List Row
  drain : Drain
  /-- What the targets accepted, in order. -/
  accepted : List Accepted
  sources : EntityId → List SourceEntry
  localSeq : Nat
  failed : Nat
  routedAppends : Nat
  /-- The next row's `serial`. -/
  inserted : Nat

inductive Answer where
  | processed
  | failed (e : DeliveryError)

inductive Input where
  /-- A wave stores its appends. -/
  | wave (branch : BranchName) (createdSeq : Nat) (rows : List OutboxAppendRow)
  /-- A source stream's document changes by another's hand. -/
  | rewriteSource (sidecarId : EntityId) (entries : List SourceEntry)
  /-- A target accepts an event of another sender. -/
  | foreign (targetSpace : JsString) (targetStream : EntityId) (eventId : JsString)
  | drain
  /-- The drain turns to its next row, having looked whether its space is deleted. -/
  | next (spaceDeleted : Bool)
  /-- The target processes the append that is under way. -/
  | process
  | answer (a : Answer)
  /-- The notice of a refusal is written, unless the write throws. -/
  | notice (throws : Bool)
  /-- The row is deleted, unless the deletion throws. -/
  | delete (throws : Bool)
  | crash

/-- What became of the notice of a refusal. -/
inductive Notice where
  | stored
  | unsourced
  | unspaced
  /-- The source event's entry is no longer in its stream's document. -/
  | entryGone
  deriving DecidableEq

inductive Event where
  | inserted (row : Row)
  | sent (row : Row) (localSeq : Option Nat)
  | processed (row : Row) (deduped : Bool)
  | refused (row : Row) (reason : JsString)
  | noticed (row : Row) (notice : Notice)
  | removed (row : Row)
  deriving DecidableEq

/-- The key the table gives its next row. -/
def nextRowId (table : List Row) : Nat := table.foldl (fun n row => max n (row.rowId + 1)) 1

def rowFor (branch : BranchName) (createdSeq : Nat) (append : OutboxAppendRow) (s : State) : Row :=
  { append with branch, rowId := nextRowId s.table, createdSeq, serial := s.inserted }

def addRow (row : Row) (s : State) : State :=
  { s with table := s.table ++ [row], inserted := s.inserted + 1 }

def insertExecutionOutboxRows (branch : BranchName) (createdSeq : Nat) :
    List OutboxAppendRow → State → State × List Event
  | [], s => (s, [])
  | append :: rest, s =>
    let row := rowFor branch createdSeq append s
    let (s, events) := insertExecutionOutboxRows branch createdSeq rest (addRow row s)
    (s, .inserted row :: events)

/-- The rows a drain delivers, in the order of their keys, which is that of the table. -/
def selectPendingExecutionOutboxRows (table : List Row) : List Row :=
  table.filter fun row => row.branch = DEFAULT_BRANCH

def deleteExecutionOutboxRow (table : List Row) (rowId : Nat) : List Row :=
  table.filter fun row => row.rowId ≠ rowId

def sourceEntryOf (entries : List SourceEntry) (eventId : JsString) : Option SourceEntry :=
  entries.find? fun entry => entry.eventId = some eventId

/-- `commitDeliveryFailureNotice`, where nothing throws: the entry with the notice added,
unless it carries one of that append. -/
def withNotice (eventId : JsString) (failure : DeliveryFailure) :
    List SourceEntry → List SourceEntry
  | [] => []
  | entry :: rest =>
    if entry.eventId = some eventId then
      (if entry.deliveryFailures.any fun f => f.eventId = failure.eventId then entry
        else { entry with deliveryFailures := entry.deliveryFailures ++ [failure] }) :: rest
    else entry :: withNotice eventId failure rest

/-- Whether the failure of a row is on its source event's entry. -/
def noticeHeld (sources : EntityId → List SourceEntry) (row : Row) : Bool :=
  match row.sourceEvent with
  | none => false
  | some source => match sourceEntryOf (sources source.sidecarId) source.eventId with
    | none => false
    | some entry => entry.deliveryFailures.any fun f => f.eventId = row.eventId

section
variable (o : Options)

/-- Whether the target has accepted the row's event. -/
def isAccepted (accepted : List Accepted) (row : OutboxAppendRow) : Bool :=
  accepted.any fun a => a.targetSpace = row.targetSpace && a.targetStream = row.targetStream &&
    a.eventId = row.eventId

/-- `deliverPendingAppends` turns to a row. -/
def turn (spaceDeleted : Bool) (s : State) : State × List Event :=
  match s.drain with
  | .ready [] => ({ s with drain := .none }, [])
  | .ready (row :: rest) =>
    if spaceDeleted then ({ s with drain := .none }, [])
    else if o.routed then ({ s with drain := .sending row rest false }, [.sent row none])
    else
      let localSeq := s.localSeq + 1
      ({ s with localSeq, drain := .sending row rest false }, [.sent row (some localSeq)])
  | _ => (s, [])

/-- A target accepts an event once. -/
def process (s : State) : State × List Event :=
  match s.drain with
  | .sending row rest _ =>
    let s := { s with drain := .sending row rest true }
    if isAccepted s.accepted row.toOutboxAppendRow then (s, [.processed row true])
    else ({ s with accepted :=
        s.accepted ++ [⟨row.targetSpace, row.targetStream, row.eventId, some row⟩] },
      [.processed row false])
  | _ => (s, [])

/-- The answer to a send, which is that of a target that has processed it or a failure. -/
def answered (a : Answer) (s : State) : State × List Event :=
  match s.drain, a with
  | .sending row rest true, .processed =>
    ({ s with
        drain := .acknowledged row rest
        routedAppends := if o.routed then s.routedAppends + 1 else s.routedAppends }, [])
  | .sending row rest _, .failed e =>
    if e.isRefusal then
      ({ s with drain := .refused row rest e.describe, failed := s.failed + 1 },
        [.refused row e.describe])
    else ({ s with drain := .none }, [])
  | _, _ => (s, [])

/-- `writeDeliveryFailureNotice`. -/
def writeNotice (throws : Bool) (s : State) : State × List Event :=
  match s.drain with
  | .refused row rest reason =>
    match row.sourceEvent, o.space with
    | none, _ => ({ s with drain := .noticed row rest }, [.noticed row .unsourced])
    | some _, none => ({ s with drain := .noticed row rest }, [.noticed row .unspaced])
    | some source, some _ =>
      let s := { s with localSeq := s.localSeq + 1 }
      if throws then ({ s with drain := .none }, [])
      else
        let entries := s.sources source.sidecarId
        let failure : DeliveryFailure := ⟨row.eventId, row.targetSpace, reason⟩
        let found := (sourceEntryOf entries source.eventId).isSome
        ({ s with
            drain := .noticed row rest
            sources := fun id => if id = source.sidecarId then
              withNotice source.eventId failure entries else s.sources id },
          [.noticed row (if found then .stored else .entryGone)])
  | _ => (s, [])

/-- A row that was processed or noticed is deleted, and the drain goes on. -/
def retire (row : Row) (rest : List Row) (throws : Bool) (s : State) : State × List Event :=
  if throws then ({ s with drain := .none }, [])
  else
    ({ s with table := deleteExecutionOutboxRow s.table row.rowId, drain := .ready rest },
      [.removed row])

def step (s : State) : Input → State × List Event
  | .wave branch createdSeq rows => insertExecutionOutboxRows branch createdSeq rows s
  | .rewriteSource sidecarId entries =>
    ({ s with sources := fun id => if id = sidecarId then entries else s.sources id }, [])
  | .foreign targetSpace targetStream eventId =>
    let event : Accepted := ⟨targetSpace, targetStream, eventId, none⟩
    if s.accepted.any fun a => a.targetSpace = targetSpace && a.targetStream = targetStream &&
        a.eventId = eventId then (s, [])
    else ({ s with accepted := s.accepted ++ [event] }, [])
  | .drain =>
    match s.drain with
    | .none => ({ s with drain := .ready (selectPendingExecutionOutboxRows s.table) }, [])
    | _ => (s, [])
  | .next spaceDeleted => turn o spaceDeleted s
  | .process => process s
  | .answer a => answered o a s
  | .notice throws => writeNotice o throws s
  | .delete throws =>
    match s.drain with
    | .acknowledged row rest => retire row rest throws s
    | .noticed row rest => retire row rest throws s
    | _ => (s, [])
  | .crash => ({ s with drain := .none }, [])

def initial (sources : EntityId → List SourceEntry) : State :=
  { table := []
    drain := .none
    accepted := []
    sources
    localSeq := 0
    failed := 0
    routedAppends := 0
    inserted := 0 }

def run (s : State) : List Input → State × List Event
  | [] => (s, [])
  | input :: inputs =>
    let (next, events) := step o s input
    let (last, later) := run next inputs
    (last, events ++ later)

end

end AppendOutbox
