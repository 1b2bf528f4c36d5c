import CommonFabric.ClientCommit
import CommonFabric.FieldOrder
import CommonFabric.JsMap

/-!
# The event append queue of a client

A queue of fired events sends one append at a time, the earliest whose stream has a token,
and takes an entry out when its append was accepted, was there already, or is refused for
good. A step is what the queue does between two waits of its own; fires, answers, timers
and a close come in any order.
-/

namespace EventAppendQueue

structure StreamLinkRef where
  id : EntityId
  path : ValuePath
  scope : Option CellScope
  deriving DecidableEq

/-- One queued fire. -/
structure QueuedEventAppend where
  sidecarId : EntityId
  stream : StreamLinkRef
  eventId : JsString
  payload : Option FabricValue
  clientSeq : Nat
  runtimeInjectedEventKeys : Option (List JsString)
  rendererTrusted : Bool
  schemaDocuments : List (JsString × FabricValue)

/-- A fire as it is handed in, which need not have its number yet. -/
structure Fire where
  append : Nat → QueuedEventAppend
  clientSeq : Option Nat

/-- An entry of the queue. The queue tells its entries apart as the objects they are. -/
structure Queued where
  ref : Nat
  append : QueuedEventAppend

inductive EventAppendOutcome where
  | delivered (deduped : Bool)
  | undelivered (refused : JsString)

/-- What a failed append rejects with, as far as it is read. -/
structure WireError where
  name : JsString
  message : JsString
  deleted : Bool
  permanentEvidence : Bool
  aclRevision : Option JsNumber
  retriable : Bool

namespace WireError

def REFUSED_ERROR_NAMES : List JsString :=
  ["ProtocolError", "RowLabelCommitError", "PreconditionFailedError"]

def isDuplicate (e : WireError) : Bool := e.name = "EventAppendDuplicateError"

def isDeletedSpaceError (e : WireError) : Bool := e.name = "AuthorizationError" && e.deleted

def aclRefusal (e : WireError) : Bool :=
  e.isDeletedSpaceError ||
    (e.name = "AuthorizationError" && e.permanentEvidence && e.aclRevision.isSome && !e.retriable)

/-- An append that can never be admitted. All else is transient. -/
def isRefusal (e : WireError) : Bool :=
  !e.isDuplicate && (REFUSED_ERROR_NAMES.contains e.name || e.aclRefusal)

end WireError

structure EventAppendPacing where
  ratePerSecond : ℚ
  burst : ℚ

structure Bucket where
  tokens : ℚ
  refilledAt : ℚ

abbrev Buckets := JsMap EntityId Bucket

structure Options where
  /-- How a sum or product of doubles rounds. -/
  round : ℚ → ℚ
  pacing : Option EventAppendPacing

def RETRY_BASE_MS : Nat := 250
def RETRY_CAP_MS : Nat := 10000

/-- Where the drain stands. -/
inductive Phase where
  | idle
  /-- About to look for the next entry to send. -/
  | looking
  | chosen (next : Queued)
  | sending (next : Queued)
  | waiting (ms : Nat)
  /-- The loop is over, and `draining` not yet taken back. -/
  | ended

structure State where
  queue : List Queued
  /-- The entries whose firer has not been answered. -/
  outcomes : List Nat
  buckets : Buckets
  clientSeq : Nat
  localSeq : Int
  attempt : Nat
  pacedHolds : Nat
  closed : Bool
  phase : Phase
  /-- The next entry's `ref`. -/
  nextRef : Nat

inductive Answer where
  | accepted
  | failed (e : WireError)

inductive Input where
  | enqueue (fire : Fire)
  | kick
  /-- A wait of the queue's own code is over, at a time of its clock. -/
  | proceed (at_ : ℚ)
  | answer (a : Answer)
  /-- The timer of a backoff or a hold. -/
  | wake
  | close

/-- Why an entry leaves the queue. -/
inductive Departure where
  | accepted
  | duplicate
  | refused (message : JsString)

inductive Event where
  | enqueued (entry : Queued)
  | submitted (entry : Queued) (commit : ClientCommit)
  | departed (entry : Queued) (why : Departure)
  | settled (ref : Nat) (outcome : EventAppendOutcome)
  | refused (entry : Queued) (message : JsString)

def scopeName : CellScope → JsString
  | .space => "space"
  | .user => "user"
  | .session => "session"

def strings (texts : List JsString) : FabricValue := .array (texts.map fun s => some (.string s))

def StreamLinkRef.toValue (link : StreamLinkRef) : FabricValue :=
  let fields : Members := [("id", .string link.id), ("path", strings link.path)]
  .record (match link.scope with
    | none => fields
    | some scope => Fields.set fields "scope" (.string (scopeName scope)))

/-- The entry the stream's document gets. -/
def entryValue (append : QueuedEventAppend) : FabricValue :=
  let fields : Members := [("eventId", .string append.eventId),
    ("firedAt", .record [("clientSeq", .number (.ofNat append.clientSeq))]),
    ("payload", append.payload.getD .undefined), ("stream", append.stream.toValue)]
  let fields := match append.runtimeInjectedEventKeys with
    | none => fields
    | some keys => Fields.set fields "runtimeInjectedEventKeys" (strings keys)
  .record (if append.rendererTrusted then Fields.set fields "rendererTrusted" (.bool true)
    else fields)

def commitFor (localSeq : Int) (append : QueuedEventAppend) : ClientCommit :=
  { localSeq
    confirmed := []
    pending := []
    operations := append.schemaDocuments.map (fun doc =>
        .set (.append "cid:" doc.1) none ⟨[("value", doc.2)]⟩) ++
      [.patch append.sidecarId none [.append "/value/entries" [entryValue append] false]]
    preconditions := []
    branch := none
    eventAppends := [⟨append.sidecarId, none, append.eventId⟩] }

section
variable (o : Options)

/-- A stream's bucket, refilled for the time since; a fresh one starts full. -/
def refilledTokens (pacing : EventAppendPacing) (bucket : Option Bucket) (at_ : ℚ) : Bucket :=
  match bucket with
  | none => ⟨pacing.burst, at_⟩
  | some bucket =>
    let elapsedS := o.round (max 0 (o.round (at_ - bucket.refilledAt)) / 1000)
    ⟨min pacing.burst (o.round (bucket.tokens + o.round (elapsedS * pacing.ratePerSecond))), at_⟩

/-- The buckets without those of quiet streams, once there are many. -/
def forgetQuiet (pacing : EventAppendPacing) (streamKey : EntityId) (buckets : Buckets) : Buckets :=
  if 64 < buckets.entries.length then
    buckets.deleteAll ((buckets.entries.filter fun entry =>
      entry.1 ≠ streamKey && pacing.burst ≤ entry.2.tokens).map (·.1))
  else buckets

structure Scan where
  buckets : Buckets
  held : List EntityId
  minDeficitMs : Option Nat

def deficitMs (pacing : EventAppendPacing) (tokens : ℚ) : Nat :=
  max 1 (o.round (o.round (o.round (1 - tokens) / pacing.ratePerSecond) * 1000)).ceil.toNat

/-- The earliest entry whose stream has a token. -/
def scan (pacing : EventAppendPacing) (at_ : ℚ) : List Queued → Scan → Option Queued × Scan
  | [], acc => (none, acc)
  | entry :: rest, acc =>
    let streamKey := entry.append.sidecarId
    if acc.held.contains streamKey then scan pacing at_ rest acc
    else
      let bucket := refilledTokens o pacing (acc.buckets.get streamKey) at_
      if 1 ≤ bucket.tokens then
        let spent := { bucket with tokens := o.round (bucket.tokens - 1) }
        (some entry,
          { acc with buckets := forgetQuiet pacing streamKey (acc.buckets.set streamKey spent) })
      else
        let deficit := deficitMs o pacing bucket.tokens
        scan pacing at_ rest
          { buckets := acc.buckets.set streamKey bucket
            held := streamKey :: acc.held
            minDeficitMs := some (min (acc.minDeficitMs.getD deficit) deficit) }

/-- One pass of `nextSendable`, in a loop that has entries and is not closed. -/
def nextSendable (at_ : ℚ) (s : State) : State :=
  match o.pacing with
  | none =>
    match s.queue with
    | [] => s
    | entry :: _ => { s with phase := .chosen entry }
  | some pacing =>
    match scan o pacing at_ s.queue ⟨s.buckets, [], none⟩ with
    | (some entry, acc) => { s with buckets := acc.buckets, phase := .chosen entry }
    | (none, acc) =>
      { s with
        buckets := acc.buckets
        pacedHolds := s.pacedHolds + 1
        phase := .waiting (acc.minDeficitMs.getD 1) }

/-- The drain starts, unless it runs already. -/
def kick (s : State) : State :=
  match s.phase with
  | .idle => if s.closed then s else { s with phase := .looking, attempt := 0 }
  | _ => s

def enqueue (fire : Fire) (s : State) : State × List Event :=
  let clientSeq := fire.clientSeq.getD s.clientSeq
  let entry : Queued := ⟨s.nextRef, fire.append clientSeq⟩
  let s : State :=
    { s with
      queue := s.queue ++ [entry]
      clientSeq := if fire.clientSeq.isSome then s.clientSeq else s.clientSeq + 1
      nextRef := s.nextRef + 1 }
  if s.closed then
    (s, [.enqueued entry, .settled entry.ref (.undelivered "event queue closed")])
  else (kick { s with outcomes := s.outcomes ++ [entry.ref] }, [.enqueued entry])

def settle (entry : Queued) (outcome : EventAppendOutcome) (s : State) : State × List Event :=
  ({ s with
      queue := s.queue.filter fun other => other.ref ≠ entry.ref
      outcomes := s.outcomes.filter fun ref => ref ≠ entry.ref },
    if s.outcomes.contains entry.ref then [.settled entry.ref outcome] else [])

def depart (entry : Queued) (why : Departure) (s : State) : State × List Event :=
  let outcome : EventAppendOutcome := match why with
    | .accepted => .delivered false
    | .duplicate => .delivered true
    | .refused message => .undelivered message
  let (settled, events) := settle entry outcome s
  ({ settled with attempt := 0, phase := .looking }, .departed entry why :: events)

def answered (a : Answer) (entry : Queued) (s : State) : State × List Event :=
  match a with
  | .accepted => depart entry .accepted s
  | .failed e =>
    if e.isDuplicate then depart entry .duplicate s
    else if e.isRefusal then
      let (s, events) := depart entry (.refused e.message) s
      (s, events ++ [.refused entry e.message])
    else
      let attempt := s.attempt + 1
      let delay := min (RETRY_BASE_MS * 2 ^ min (attempt - 1) 10) RETRY_CAP_MS
      ({ s with attempt, phase := .waiting delay }, [])

/-- The drain goes on from where it waited. -/
def proceed (at_ : ℚ) (s : State) : State × List Event :=
  match s.phase with
  | .looking =>
    if s.queue = [] ∨ s.closed = true then ({ s with phase := .ended }, [])
    else (nextSendable o at_ s, [])
  | .chosen entry =>
    if s.closed then ({ s with phase := .ended }, [])
    else
      let localSeq := s.localSeq + 1
      ({ s with localSeq, phase := .sending entry },
        [.submitted entry (commitFor localSeq entry.append)])
  | .ended =>
    let s := { s with phase := .idle }
    (if s.queue = [] then s else kick s, [])
  | _ => (s, [])

def wake (s : State) : State :=
  match s.phase with
  | .waiting _ => { s with phase := .looking }
  | _ => s

/-- Every firer is answered, and a wait is over; the entries stay. -/
def close (s : State) : State × List Event :=
  (wake { s with closed := true, outcomes := [] },
    s.outcomes.map fun ref => .settled ref (.undelivered "event queue closed"))

def step (s : State) : Input → State × List Event
  | .enqueue fire => enqueue fire s
  | .kick => (kick s, [])
  | .proceed at_ => proceed o at_ s
  | .answer a =>
    match s.phase with
    | .sending entry => answered a entry s
    | _ => (s, [])
  | .wake => (wake s, [])
  | .close => close s

/-- The queue after the backlog of a predecessor was loaded. -/
def loaded (localSeq : Int) (backlog : List QueuedEventAppend) : State :=
  let queue := backlog.mapIdx fun i append => ⟨i, append⟩
  { queue
    outcomes := []
    buckets := .empty
    clientSeq := backlog.foldl (fun n append => max n (append.clientSeq + 1)) 0
    localSeq
    attempt := 0
    pacedHolds := 0
    closed := false
    phase := if backlog = [] then .idle else .looking
    nextRef := backlog.length }

def run (s : State) : List Input → State × List Event
  | [] => (s, [])
  | input :: inputs =>
    let (next, events) := step o s input
    let (last, later) := run next inputs
    (last, events ++ later)

end

end EventAppendQueue
