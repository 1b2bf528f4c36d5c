import Mathlib.Logic.Function.Basic
import Mathlib.Logic.Function.Iterate
import CommonFabric.JsSet

/-!
# What a speculative transaction launched

A handler's transaction may queue events and start pieces before its fate is known. A record
of the transaction keeps them: once the transaction fails its events are dropped and its
pieces stopped, and once it commits the events stay registered until they dispatch.

The failure callback runs hooks, and a hook may come back to the table it was called from.
So it is modelled hook by hook, with any other operation free to run between two of them.
-/

namespace SpeculationLineage

inductive TxStatus where
  | ready
  | pending
  | done
  | error
  deriving DecidableEq, Repr

inductive OriginStatus where
  | pending
  | confirmed
  | failed
  deriving DecidableEq, Repr

/-- An event on the queue. Two events are one when they are the same object, `ref`. -/
structure QueuedEvent where
  ref : Nat
  id : String
  deriving DecidableEq, Repr

/-- The closure that stops a piece. It may throw when it runs. -/
structure PieceStop where
  ref : Nat
  throws : Bool
  deriving DecidableEq, Repr

structure OriginRecord where
  status : OriginStatus
  events : JsSet QueuedEvent
  pieceStops : List PieceStop
  rerun : Bool

/-- What can be seen of the lineage and of its hooks from outside. -/
inductive Happening where
  | launched (event : QueuedEvent)
  | released (event : QueuedEvent)
  | dropped (event : QueuedEvent) (reason : String) (quiet : Bool)
  | stopRecorded (stop : PieceStop)
  | stopped (stop : PieceStop)
  | onError
  | queueExecution
  deriving DecidableEq, Repr

/-- A failure callback between two of its hooks. It drops events until `nextStop` is set, the
index of the stop it runs next. `detached` says that a release has taken the record it holds
off the table. -/
structure FailureCallback where
  nextStop : Option Nat
  detached : Bool

/-- One transaction, with its entry of the table and its events on the queue. -/
structure Origin where
  isReadOnly : Bool
  txStatus : TxStatus
  registered : Bool
  record : Option OriginRecord
  failing : Option FailureCallback
  runsAgain : Bool
  queue : JsSet QueuedEvent
  log : List Happening

namespace Origin

/-- The status a record starts with. A read-only transaction never commits, so what it
launches is no speculation. -/
def launchStatus (o : Origin) : OriginStatus :=
  if o.isReadOnly then .confirmed
  else match o.txStatus with
    | .done => .confirmed
    | .error => .failed
    | _ => .pending

def recordFor (o : Origin) : OriginRecord × Origin :=
  match o.record with
  | some record => (record, o)
  | none =>
    let record : OriginRecord := ⟨o.launchStatus, .empty, [], false⟩
    (record, { o with
      record := some record
      registered := o.registered || decide (record.status = .pending) })

/-- An event is put on the queue and recorded on its origin in one go. -/
def recordEvent (o : Origin) (event : QueuedEvent) : Origin :=
  let found := o.recordFor
  { found.2 with
    record := some { found.1 with events := found.1.events.add event }
    queue := o.queue.add event
    log := if event ∈ o.queue then o.log else o.log ++ [.launched event] }

def recordPieceStop (o : Origin) (stop : PieceStop) : Origin :=
  let found := o.recordFor
  { found.2 with
    record := some { found.1 with pieceStops := found.1.pieceStops ++ [stop] }
    log := o.log ++ [.stopRecorded stop] }

def noteRerun (o : Origin) : Origin :=
  { o with
    runsAgain := true
    record := o.record.map fun record => { record with rerun := true } }

/-- The table's part of a release. -/
def forget (o : Origin) (event : QueuedEvent) : Origin :=
  match o.record with
  | none => o
  | some record =>
    if record.status ≠ .pending ∧ (record.events.delete event).size = 0 ∧
        record.pieceStops.length = 0 then
      { o with
        record := none
        failing := o.failing.map fun callback => { callback with detached := true } }
    else { o with record := some { record with events := record.events.delete event } }

/-- The event leaves the queue without the lineage having dropped it: it dispatches, or its
delivery is given up for a reason of its own. -/
def release (o : Origin) (event : QueuedEvent) : Origin :=
  let forgotten := o.forget event
  { forgotten with
    queue := o.queue.delete event
    log := if event ∈ o.queue then o.log ++ [.released event] else o.log }

/-- The hook takes the event off the queue and releases it before it tells anyone. -/
def dropQueuedEvent (o : Origin) (event : QueuedEvent) (reason : String) (quiet : Bool) :
    Origin :=
  let forgotten := o.forget event
  { forgotten with
    queue := o.queue.delete event
    log := o.log ++ [.dropped event reason quiet] }

/-- An origin without a record has settled and flushed what it launched. -/
def originStatus (o : Origin) : OriginStatus := (o.record.map (·.status)).getD .confirmed

/-- The head of the queue at its turn. A cross-space event waits for its origin's fate. -/
def dispatch (o : Origin) (event : QueuedEvent) (sameSpace : Bool) : Origin :=
  if event ∈ o.queue then
    match o.originStatus with
    | .failed => o.dropQueuedEvent event
        ("Event dropped: lineage origin failed before " ++ event.id ++ " dispatched") o.runsAgain
    | .pending => if sameSpace then o.release event else o
    | .confirmed => o.release event
  else o

/-- The transaction moves on, and stays where it has settled. -/
def moveTo (o : Origin) (next : TxStatus) : Origin :=
  if o.txStatus = .done ∨ o.txStatus = .error then o else { o with txStatus := next }

/-- The commit callback, as far as its first hook. -/
def commitCallback (o : Origin) : Origin :=
  if o.registered ∧ (o.txStatus = .done ∨ o.txStatus = .error) then
    match o.record with
    | none => { o with registered := false }
    | some record =>
      if o.txStatus = .error then
        { o with
          registered := false
          record := some { record with status := .failed }
          failing := some ⟨none, false⟩ }
      else
        { o with
          registered := false
          -- the events stay: still queued ones ask for the status until they dispatch
          record := if record.events.size = 0 then none
            else some { record with status := .confirmed, pieceStops := [] }
          log := o.log ++ [.queueExecution] }
  else o

/-- The events and stops of the record a failure callback holds. Off the table, both are
empty. -/
def held (o : Origin) (callback : FailureCallback) : List QueuedEvent × List PieceStop :=
  match o.record with
  | some record =>
    if callback.detached then ([], []) else (record.events.items, record.pieceStops)
  | none => ([], [])

def rerun (o : Origin) : Bool := (o.record.map (·.rerun)).getD false

def failureReason (o : Origin) (event : QueuedEvent) : String :=
  if o.rerun then
    "Event dropped: speculative origin failed and runs again before " ++ event.id ++ " dispatched"
  else "Event dropped: speculative origin failed before " ++ event.id ++ " dispatched"

/-- The stop at `next`, or the end of the callback. A stop that throws is reported, and the
loop goes on. -/
def continueStops (o : Origin) (callback : FailureCallback) (next : Nat) : Origin :=
  match (o.held callback).2[next]? with
  | some stop =>
    { o with
      failing := some { callback with nextStop := some (next + 1) }
      log := o.log ++ .stopped stop :: if stop.throws then [.onError] else [] }
  | none =>
    { o with
      record := none
      failing := none
      log := o.log ++ [.queueExecution] }

/-- A failure callback as far as its next hook. Each drop deletes the event it is about, so
the iterator over the events always stands before the first one left. -/
def continueFailure (o : Origin) : Origin :=
  match o.failing with
  | none => o
  | some callback =>
    match callback.nextStop with
    | some next => o.continueStops callback next
    | none =>
      match (o.held callback).1 with
      | event :: _ => o.dropQueuedEvent event (o.failureReason event) o.rerun
      | [] => o.continueStops callback 0

end Origin

/-- What can happen to a transaction and what it launched. -/
inductive Act where
  | moveTo (next : TxStatus)
  | commitCallback
  | continueFailure
  | recordEvent (event : QueuedEvent)
  | recordPieceStop (stop : PieceStop)
  | noteRerun
  | release (event : QueuedEvent)
  | dispatch (event : QueuedEvent) (sameSpace : Bool)

def Origin.step (o : Origin) : Act → Origin
  | .moveTo next => o.moveTo next
  | .commitCallback => o.commitCallback
  | .continueFailure => o.continueFailure
  | .recordEvent event => o.recordEvent event
  | .recordPieceStop stop => o.recordPieceStop stop
  | .noteRerun => o.noteRerun
  | .release event => o.release event
  | .dispatch event sameSpace => o.dispatch event sameSpace

/-- The table: an entry for each transaction. -/
abbrev Lineage (ω : Type) := ω → Origin

variable {ω : Type} [DecidableEq ω]

def step (l : Lineage ω) (m : ω × Act) : Lineage ω := Function.update l m.1 ((l m.1).step m.2)

def run (l : Lineage ω) (ms : List (ω × Act)) : Lineage ω := ms.foldl step l

end SpeculationLineage

namespace SpeculationLineage

namespace Origin

def launches (o : Origin) (event : QueuedEvent) : Nat := o.log.count (.launched event)

def releases (o : Origin) (event : QueuedEvent) : Nat := o.log.count (.released event)

def drops (o : Origin) (event : QueuedEvent) : Nat :=
  o.log.countP fun
    | .dropped e _ _ => decide (e = event)
    | _ => false

def stopsRecorded (o : Origin) (stop : PieceStop) : Nat := o.log.count (.stopRecorded stop)

def stopsRun (o : Origin) (stop : PieceStop) : Nat := o.log.count (.stopped stop)

/-- The events the record on the table holds. -/
def recorded (o : Origin) : List QueuedEvent :=
  (o.record.map (·.events.items)).getD []

/-- The stops that a failure has still to run. -/
def owed (o : Origin) : List PieceStop :=
  match o.failing with
  | none => (o.record.map (·.pieceStops)).getD []
  | some callback => (o.held callback).2.drop (callback.nextStop.getD 0)

/-- The commit callback has run, all of it, or none was ever registered. -/
def CallbackDone (o : Origin) : Prop := o.registered = false ∧ o.failing = none

/-- Nothing has been recorded of the transaction yet, which may have settled all the same. -/
structure Fresh (o : Origin) : Prop where
  registered : o.registered = false
  record : o.record = none
  failing : o.failing = none
  queue : o.queue = .empty
  log : o.log = []

/-- How the entry of the table and the callbacks fit together, given what the transaction's
status says. -/
inductive Stage (fate : OriginStatus) :
    Bool → Option OriginRecord → Option FailureCallback → Prop
  | idle : Stage fate false none none
  | waiting (record : OriginRecord) (hs : record.status = .pending) :
    Stage fate true (some record) none
  | settled (record : OriginRecord) (hs : record.status = fate) (hf : fate ≠ .pending)
    (hstops : record.pieceStops = []) (hevents : record.events.items ≠ []) :
    Stage fate false (some record) none
  | dropping (record : OriginRecord) (hs : record.status = .failed) (hf : fate = .failed) :
    Stage fate false (some record) (some ⟨none, false⟩)
  | stopping (record : OriginRecord) (next : Nat) (hs : record.status = .failed)
    (hf : fate = .failed) (hevents : record.events.items = [])
    (hstops : 0 < next ∧ next ≤ record.pieceStops.length) :
    Stage fate false (some record) (some ⟨some next, false⟩)
  | detached (hf : fate = .failed) : Stage fate false none (some ⟨none, true⟩)

/-- The invariant of an origin. -/
structure Tracked (o : Origin) : Prop where
  stage : Stage o.launchStatus o.registered o.record o.failing
  writable : o.registered = true → o.isReadOnly = false
  queued : ∀ event, event ∈ o.queue ↔ event ∈ o.recorded
  balanced : ∀ event, o.launches event =
    o.releases event + o.drops event + if event ∈ o.queue then 1 else 0
  owing : o.launchStatus ≠ .confirmed →
    ∀ stop, o.stopsRecorded stop = o.stopsRun stop + o.owed.count stop
  quiet : o.launchStatus ≠ .failed → (∀ event, o.drops event = 0) ∧ ∀ stop, o.stopsRun stop = 0

theorem Fresh.tracked {o : Origin} (h : o.Fresh) : o.Tracked := by
  constructor
  · rw [h.registered, h.record, h.failing]
    exact .idle
  · simp [h.registered]
  · simp [h.queue, h.record, recorded]
  · simp [h.queue, h.log, launches, releases, drops]
  · simp [h.log, h.record, h.failing, stopsRecorded, stopsRun, owed]
  · simp [h.log, drops, stopsRun]

section Forget

variable (o : Origin) (event : QueuedEvent)

@[simp] theorem forget_registered : (o.forget event).registered = o.registered := by
  unfold forget
  split
  · rfl
  · split <;> rfl

@[simp] theorem forget_isReadOnly : (o.forget event).isReadOnly = o.isReadOnly := by
  unfold forget
  split
  · rfl
  · split <;> rfl

@[simp] theorem forget_txStatus : (o.forget event).txStatus = o.txStatus := by
  unfold forget
  split
  · rfl
  · split <;> rfl

@[simp] theorem forget_launchStatus : (o.forget event).launchStatus = o.launchStatus := by
  simp [launchStatus]

end Forget

variable {o : Origin}

/-- A release keeps the record with one event less, or takes it off the table once it is
empty and its origin has settled. -/
theorem forget_cases (o : Origin) (event : QueuedEvent) :
    (o.record = none ∧ o.forget event = o) ∨
    (∃ record, o.record = some record ∧ record.status ≠ .pending ∧
      (record.events.delete event).items = [] ∧ record.pieceStops = [] ∧
      o.forget event = { o with
        record := none
        failing := o.failing.map fun callback => { callback with detached := true } }) ∨
    (∃ record, o.record = some record ∧
      ¬ (record.status ≠ .pending ∧ (record.events.delete event).items = [] ∧
        record.pieceStops = []) ∧
      o.forget event =
        { o with record := some { record with events := record.events.delete event } }) := by
  unfold forget
  cases o.record with
  | none => exact .inl ⟨rfl, rfl⟩
  | some record =>
    simp only [JsSet.size, List.length_eq_zero_iff]
    split
    case isTrue hc => exact .inr (.inl ⟨record, rfl, hc.1, hc.2.1, hc.2.2, rfl⟩)
    case isFalse hc => exact .inr (.inr ⟨record, rfl, hc, rfl⟩)

theorem mem_items_delete (s : JsSet QueuedEvent) (event e : QueuedEvent) :
    e ∈ (s.delete event).items ↔ e ≠ event ∧ e ∈ s.items := JsSet.mem_delete

theorem mem_recorded_forget (o : Origin) (event e : QueuedEvent) :
    e ∈ (o.forget event).recorded ↔ e ≠ event ∧ e ∈ o.recorded := by
  obtain ⟨hr, hf⟩ | ⟨record, hr, -, hevents, -, hf⟩ | ⟨record, hr, -, hf⟩ :=
    o.forget_cases event
  · rw [hf]
    simp [recorded, hr]
  · have hmem := mem_items_delete record.events event e
    rw [hevents] at hmem
    rw [hf]
    simpa [recorded, hr] using hmem
  · rw [hf]
    simpa [recorded, hr] using mem_items_delete record.events event e

/-- A record whose stops are still to run is not taken off the table. -/
theorem owed_forget (o : Origin) (event : QueuedEvent) : (o.forget event).owed = o.owed := by
  obtain ⟨-, hf⟩ | ⟨record, hr, -, -, hstops, hf⟩ | ⟨record, hr, -, hf⟩ := o.forget_cases event
  · rw [hf]
  · rw [hf]
    cases ho : o.failing with
    | none => simp [owed, hr, ho, hstops]
    | some callback => cases hd : callback.detached <;> simp [owed, held, hr, ho, hd, hstops]
  · rw [hf]
    cases ho : o.failing with
    | none => simp [owed, hr, ho]
    | some callback => cases hd : callback.detached <;> simp [owed, held, hr, ho, hd]

theorem Stage.forget {fate : OriginStatus} (h : Stage fate o.registered o.record o.failing)
    (event : QueuedEvent) :
    Stage fate o.registered (o.forget event).record (o.forget event).failing := by
  obtain ⟨-, hf⟩ | ⟨record, hr, hs, -, hstops, hf⟩ | ⟨record, hr, hkept, hf⟩ :=
    o.forget_cases event
  · rwa [hf]
  · rw [hf]
    rw [hr] at h
    generalize o.registered = registered at h ⊢
    generalize o.failing = failing at h ⊢
    cases h with
    | waiting _ hp => exact absurd hp hs
    | settled => exact .idle
    | dropping _ _ hfate => exact .detached hfate
    | stopping _ _ _ _ _ hne =>
      rw [hstops, List.length_nil] at hne
      omega
  · rw [hf]
    rw [hr] at h
    generalize o.registered = registered at h ⊢
    generalize o.failing = failing at h ⊢
    cases h with
    | waiting _ hp => exact .waiting _ hp
    | settled _ hs hfate hstops =>
      have hne : (record.events.delete event).items ≠ [] :=
        fun hnil => hkept ⟨fun hp => hfate (hs ▸ hp), hnil, hstops⟩
      exact .settled { record with events := record.events.delete event } hs hfate hstops hne
    | dropping _ hs hfate => exact .dropping _ hs hfate
    | stopping _ next hs hfate hevents hne =>
      have hnil : (record.events.delete event).items = [] := by simp [JsSet.delete, hevents]
      exact .stopping { record with events := record.events.delete event } next hs hfate hnil hne

/-- What a log says of an event that leaves the queue. -/
inductive Left (o : Origin) (event : QueuedEvent) : List Happening → Prop
  | absent (hq : event ∉ o.queue) : Left o event []
  | released (hq : event ∈ o.queue) : Left o event [.released event]
  | dropped (hq : event ∈ o.queue) (hf : o.launchStatus = .failed) (reason : String)
    (quiet : Bool) : Left o event [.dropped event reason quiet]

/-- An event leaves the queue and its record, and the log says once why. -/
theorem Tracked.leave (h : o.Tracked) {event : QueuedEvent} {added : List Happening}
    (ha : Left o event added) :
    Tracked { o.forget event with
      queue := o.queue.delete event
      log := o.log ++ added } := by
  have hfate := o.forget_launchStatus event
  constructor
  · have hs := h.stage.forget event
    rw [← o.forget_registered event, ← hfate] at hs
    exact hs
  · have hw := h.writable
    rw [← o.forget_registered event, ← o.forget_isReadOnly event] at hw
    exact hw
  · intro e
    have hq : e ∈ o.queue.delete event ↔ e ≠ event ∧ e ∈ o.queue := JsSet.mem_delete
    rw [hq, h.queued]
    exact (o.mem_recorded_forget event e).symm
  · intro e
    have hb := h.balanced e
    simp only [launches, releases, drops, JsSet.mem_delete] at hb ⊢
    cases ha with
    | absent hq =>
      have hiff : e ≠ event ∧ e ∈ o.queue ↔ e ∈ o.queue :=
        ⟨And.right, fun he => ⟨fun heq => hq (heq ▸ he), he⟩⟩
      simpa only [hiff, List.append_nil] using hb
    | released hq =>
      by_cases he : e = event
      · subst he
        simp [hq] at hb ⊢
        omega
      · simpa [he, Ne.symm he] using hb
    | dropped hq hf reason quiet =>
      by_cases he : e = event
      · subst he
        simp [hq] at hb ⊢
        omega
      · simpa [he, Ne.symm he] using hb
  · intro hc stop
    have ho := h.owing (hfate ▸ hc) stop
    have howed := o.owed_forget event
    have hsame : added.count (.stopRecorded stop) = 0 ∧ added.count (.stopped stop) = 0 := by
      cases ha <;> simp
    simp only [stopsRecorded, stopsRun, List.count_append, hsame] at ho ⊢
    have hw : (o.forget event).owed.count stop = o.owed.count stop := by rw [howed]
    exact ho.trans (congrArg _ hw.symm)
  · intro hf
    have hf' : o.launchStatus ≠ .failed := hfate ▸ hf
    have hq := h.quiet hf'
    constructor
    · intro e
      have hd := hq.1 e
      cases ha with
      | absent | released => simpa [drops] using hd
      | dropped _ hfailed => exact absurd hfailed hf'
    · intro stop
      have hs := hq.2 stop
      cases ha with
      | absent | released => simpa [stopsRun] using hs
      | dropped _ hfailed => exact absurd hfailed hf'

theorem Tracked.release (h : o.Tracked) (event : QueuedEvent) : (o.release event).Tracked := by
  by_cases hq : event ∈ o.queue
  · have ht := h.leave (.released hq)
    simpa [Origin.release, hq] using ht
  · have ht := h.leave (.absent hq)
    simpa [Origin.release, hq] using ht

theorem Tracked.dropQueuedEvent (h : o.Tracked) {event : QueuedEvent} (hq : event ∈ o.queue)
    (hf : o.launchStatus = .failed) (reason : String) (quiet : Bool) :
    (o.dropQueuedEvent event reason quiet).Tracked := h.leave (.dropped hq hf reason quiet)

/-- A record that says its origin failed is one of an origin that did. -/
theorem Stage.failed (h : Stage o.launchStatus o.registered o.record o.failing)
    (hs : o.originStatus = .failed) : o.launchStatus = .failed := by
  unfold originStatus at hs
  generalize o.registered = registered, o.record = record, o.failing = failing at h hs
  cases h with
  | idle => cases hs
  | detached => cases hs
  | waiting record hp =>
    have hr : record.status = .failed := hs
    rw [hp] at hr
    cases hr
  | settled record hr => exact hr.symm.trans hs
  | dropping _ _ hf => exact hf
  | stopping _ _ _ hf => exact hf

theorem Tracked.dispatch (h : o.Tracked) (event : QueuedEvent) (sameSpace : Bool) :
    (o.dispatch event sameSpace).Tracked := by
  unfold Origin.dispatch
  split
  case isFalse => exact h
  case isTrue hq =>
    cases hs : o.originStatus with
    | failed => exact h.dropQueuedEvent hq (h.stage.failed hs) _ _
    | confirmed => exact h.release event
    | pending =>
      cases sameSpace with
      | true => exact h.release event
      | false => exact h

theorem Tracked.noteRerun (h : o.Tracked) : o.noteRerun.Tracked := by
  have hrecorded : o.noteRerun.recorded = o.recorded := by
    cases hr : o.record <;> simp [recorded, Origin.noteRerun, hr]
  have howed : o.noteRerun.owed = o.owed := by
    cases hr : o.record <;> cases hf : o.failing <;>
      simp [owed, held, Origin.noteRerun, hr, hf]
  constructor
  · have hs := h.stage
    have hfate : o.noteRerun.launchStatus = o.launchStatus := rfl
    rw [hfate]
    simp only [Origin.noteRerun]
    generalize o.registered = registered, o.record = record, o.failing = failing at hs ⊢
    cases hs with
    | idle => exact .idle
    | waiting record hs => exact .waiting { record with rerun := true } hs
    | settled record hs hf hstops hevents =>
      exact .settled { record with rerun := true } hs hf hstops hevents
    | dropping record hs hf => exact .dropping { record with rerun := true } hs hf
    | stopping record next hs hf hevents hstops =>
      exact .stopping { record with rerun := true } next hs hf hevents hstops
    | detached hf => exact .detached hf
  · exact h.writable
  · rw [hrecorded]
    exact h.queued
  · exact h.balanced
  · rw [howed]
    exact h.owing
  · exact h.quiet

theorem moveTo_launchStatus (o : Origin) (next : TxStatus) :
    (o.moveTo next).launchStatus = o.launchStatus ∨ o.launchStatus = .pending := by
  by_cases hsettled : o.txStatus = .done ∨ o.txStatus = .error
  · simp [Origin.moveTo, hsettled]
  · obtain ⟨hd, he⟩ := not_or.1 hsettled
    cases hr : o.isReadOnly with
    | true => simp [Origin.moveTo, hsettled, launchStatus, hr]
    | false => cases ht : o.txStatus <;> simp_all [launchStatus]

/-- Until the transaction settles its entry says no more than that it is pending. -/
theorem Stage.of_pending {registered : Bool} {record : Option OriginRecord}
    {failing : Option FailureCallback} (h : Stage .pending registered record failing)
    (fate : OriginStatus) : Stage fate registered record failing := by
  cases h with
  | idle => exact .idle
  | waiting record hs => exact .waiting record hs
  | settled _ _ hf => exact absurd rfl hf
  | dropping _ _ hf => cases hf
  | stopping _ _ _ hf => cases hf
  | detached hf => cases hf

theorem moveTo_eq (o : Origin) (next : TxStatus) :
    o.moveTo next = { o with txStatus := (o.moveTo next).txStatus } := by
  unfold Origin.moveTo
  split <;> rfl

theorem Tracked.moveTo (h : o.Tracked) (next : TxStatus) : (o.moveTo next).Tracked := by
  have hfate := o.moveTo_launchStatus next
  rw [o.moveTo_eq next] at hfate ⊢
  constructor
  · obtain heq | hpending := hfate
    · rw [heq]
      exact h.stage
    · have hs := h.stage
      rw [hpending] at hs
      exact hs.of_pending _
  · exact h.writable
  · exact h.queued
  · exact h.balanced
  · intro hc
    apply h.owing
    obtain heq | hpending := hfate
    · rwa [← heq]
    · simp [hpending]
  · intro hf
    apply h.quiet
    obtain heq | hpending := hfate
    · rwa [← heq]
    · simp [hpending]

/-- What the transaction's status says once it has settled, where it may be written to. -/
theorem launchStatus_of_error (hr : o.isReadOnly = false) (ht : o.txStatus = .error) :
    o.launchStatus = .failed := by simp [launchStatus, hr, ht]

theorem launchStatus_of_done (hr : o.isReadOnly = false) (ht : o.txStatus = .done) :
    o.launchStatus = .confirmed := by simp [launchStatus, hr, ht]

theorem Tracked.commitCallback (h : o.Tracked) : o.commitCallback.Tracked := by
  by_cases hc : o.registered ∧ (o.txStatus = .done ∨ o.txStatus = .error)
  case neg =>
    have heq : o.commitCallback = o := if_neg hc
    rwa [heq]
  case pos =>
    obtain ⟨hreg, hsettled⟩ := hc
    have hwritable := h.writable hreg
    obtain ⟨record, hr, hf⟩ : ∃ record, o.record = some record ∧ o.failing = none := by
      have hs := h.stage
      rw [hreg] at hs
      generalize o.record = record, o.failing = failing at hs ⊢
      cases hs with
      | waiting record => exact ⟨record, rfl, rfl⟩
    have hrecorded := h.queued
    have howing := h.owing
    simp only [recorded, hr, Option.map_some, Option.getD_some] at hrecorded
    simp only [owed, hr, hf, Option.map_some, Option.getD_some] at howing
    by_cases herror : o.txStatus = .error
    · have hfate := launchStatus_of_error hwritable herror
      have heq : o.commitCallback = { o with
          registered := false
          record := some { record with status := .failed }
          failing := some ⟨none, false⟩ } := by
        simp [Origin.commitCallback, hreg, herror, hr]
      rw [heq]
      constructor
      · exact .dropping _ rfl hfate
      · simp
      · exact hrecorded
      · exact h.balanced
      · intro hne stop
        exact howing hne stop
      · exact h.quiet
    · have hdone : o.txStatus = .done := hsettled.resolve_right herror
      have hfate := launchStatus_of_done hwritable hdone
      have heq : o.commitCallback = { o with
          registered := false
          record := if record.events.size = 0 then none
            else some { record with status := .confirmed, pieceStops := [] }
          log := o.log ++ [.queueExecution] } := by
        simp [Origin.commitCallback, hreg, hdone, hr]
      rw [heq]
      have hempty : record.events.size = 0 ↔ record.events.items = [] := List.length_eq_zero_iff
      constructor
      · rw [hf]
        split
        case isTrue => exact .idle
        case isFalse hne =>
          have hfate' : Origin.launchStatus o ≠ .pending := by simp [hfate]
          exact .settled _ hfate.symm hfate' rfl (hne ∘ hempty.2)
      · simp
      · intro event
        have hq := hrecorded event
        by_cases hsize : record.events.size = 0
        · simp [recorded, hsize, hempty.1 hsize] at hq ⊢
          exact hq
        · simpa [recorded, hsize] using hq
      · intro event
        simpa [launches, releases, drops] using h.balanced event
      · intro hne
        exact absurd hfate hne
      · intro hne
        have hq := h.quiet hne
        constructor
        · intro event
          simpa [drops] using hq.1 event
        · intro stop
          simpa [stopsRun] using hq.2 stop

/-- What a failure callback finds: its transaction has failed, and once it runs stops, or its
record is off the table, no event is recorded. -/
theorem Stage.callback {callback : FailureCallback}
    (h : Stage o.launchStatus o.registered o.record o.failing) (hf : o.failing = some callback) :
    o.registered = false ∧ o.launchStatus = .failed ∧ o.recorded = (o.held callback).1 ∧
      (callback.nextStop ≠ none → o.recorded = []) := by
  unfold recorded held
  generalize o.registered = registered, o.record = record, o.failing = failing at h hf ⊢
  cases h with
  | dropping record hs hfate =>
    cases hf
    simp [hfate]
  | stopping record next hs hfate hevents hstops =>
    cases hf
    simp [hfate, hevents]
  | detached hfate =>
    cases hf
    simp [hfate]
  | _ => cases hf

/-- The callback goes on with the stops, at the one it has come to. -/
theorem Tracked.continueStops (h : o.Tracked) {callback : FailureCallback}
    (hf : o.failing = some callback) (hevents : o.recorded = []) :
    (o.continueStops callback (callback.nextStop.getD 0)).Tracked := by
  obtain ⟨hreg, hfate, -, -⟩ := h.stage.callback hf
  have howing := h.owing
  simp only [owed, hf] at howing
  unfold Origin.continueStops
  cases hstop : (o.held callback).2[callback.nextStop.getD 0]? with
  | none =>
    have hdrop : (o.held callback).2.drop (callback.nextStop.getD 0) = [] :=
      List.drop_eq_nil_of_le (List.getElem?_eq_none_iff.1 hstop)
    constructor
    · simp only [hreg]
      exact .idle
    · exact h.writable
    · intro event
      have hq := h.queued event
      rw [hevents] at hq
      simpa [recorded] using hq
    · intro event
      simpa [launches, releases, drops] using h.balanced event
    · intro hne stop
      have ho := howing hne stop
      rw [hdrop] at ho
      simpa [stopsRecorded, stopsRun, owed] using ho
    · intro hne
      exact absurd hfate hne
  | some stop =>
    obtain ⟨record, hr, hd⟩ : ∃ record, o.record = some record ∧ callback.detached = false := by
      cases hr : o.record with
      | none => simp [held, hr] at hstop
      | some record => cases hd : callback.detached <;> simp_all [held]
    obtain ⟨hlt, hget⟩ := List.getElem?_eq_some_iff.1 hstop
    have hdrop : (o.held callback).2.drop (callback.nextStop.getD 0) =
        stop :: (o.held callback).2.drop (callback.nextStop.getD 0 + 1) := by
      rw [← hget]
      exact List.drop_eq_getElem_cons hlt
    have hheld : (o.held callback).2 = record.pieceStops := by simp [held, hr, hd]
    have hstatus : record.status = .failed := by
      have hs := h.stage
      rw [hr, hf] at hs
      generalize o.registered = registered at hs
      cases hs with
      | dropping _ hs => exact hs
      | stopping _ _ hs => exact hs
    have hnone : record.events.items = [] := by simpa [recorded, hr] using hevents
    rw [hheld] at hlt
    constructor
    · simp only [hreg, hr]
      obtain ⟨nextStop, detached⟩ := callback
      cases hd
      exact .stopping record _ hstatus hfate hnone ⟨Nat.succ_pos _, hlt⟩
    · exact h.writable
    · exact h.queued
    · intro event
      cases hthrows : stop.throws <;>
        simpa [launches, releases, drops, hthrows] using h.balanced event
    · intro hc other
      have ho := howing hc other
      rw [hdrop, hheld] at ho
      have hw : (held { o with
          failing := some { callback with nextStop := some (callback.nextStop.getD 0 + 1) }
          log := o.log ++ .stopped stop :: if stop.throws then [.onError] else [] }
          { callback with nextStop := some (callback.nextStop.getD 0 + 1) }).2 =
            record.pieceStops := by simp [held, hr, hd]
      simp only [owed, hw, Option.getD_some]
      cases hthrows : stop.throws <;>
      · simp [stopsRecorded, stopsRun, List.count_cons] at ho ⊢
        omega
    · intro hc
      exact absurd hfate hc

theorem continueFailure_of_stops {callback : FailureCallback} (hf : o.failing = some callback)
    (h : callback.nextStop ≠ none ∨ (o.held callback).1 = []) :
    o.continueFailure = o.continueStops callback (callback.nextStop.getD 0) := by
  unfold Origin.continueFailure
  rw [hf]
  cases hn : callback.nextStop with
  | some next => simp [hn]
  | none =>
    have hnil : (o.held callback).1 = [] := h.resolve_left (by simp [hn])
    simp [hn, hnil]

theorem continueFailure_of_event {callback : FailureCallback} {event : QueuedEvent}
    {rest : List QueuedEvent} (hf : o.failing = some callback) (hn : callback.nextStop = none)
    (he : (o.held callback).1 = event :: rest) :
    o.continueFailure = o.dropQueuedEvent event (o.failureReason event) o.rerun := by
  unfold Origin.continueFailure
  rw [hf]
  simp [hn, he]

/-- A failure callback drops the first event it holds, or goes on with its stops where it
holds none. -/
theorem Tracked.callback_cases (h : o.Tracked) {callback : FailureCallback}
    (hf : o.failing = some callback) :
    (∃ event, event ∈ o.queue ∧
      o.continueFailure = o.dropQueuedEvent event (o.failureReason event) o.rerun) ∨
    (o.recorded = [] ∧
      o.continueFailure = o.continueStops callback (callback.nextStop.getD 0)) := by
  obtain ⟨-, -, hheld, hnone⟩ := h.stage.callback hf
  by_cases hn : callback.nextStop = none
  · cases he : (o.held callback).1 with
    | nil => exact .inr ⟨hheld.trans he, continueFailure_of_stops hf (.inr he)⟩
    | cons event rest =>
      apply Or.inl
      exists event
      constructor
      · rw [h.queued, hheld, he]
        exact List.mem_cons_self
      · exact continueFailure_of_event hf hn he
  · exact .inr ⟨hnone hn, continueFailure_of_stops hf (.inl hn)⟩

theorem Tracked.continueFailure (h : o.Tracked) : o.continueFailure.Tracked := by
  cases hf : o.failing with
  | none =>
    have heq : o.continueFailure = o := by simp [Origin.continueFailure, hf]
    rwa [heq]
  | some callback =>
    obtain ⟨event, hq, heq⟩ | ⟨hnil, heq⟩ := h.callback_cases hf
    · rw [heq]
      exact h.dropQueuedEvent hq (h.stage.callback hf).2.1 _ _
    · rw [heq]
      exact h.continueStops hf hnil

/-- A stop recorded now will be run if the transaction fails: its fate is open, or its failure
callback is under way and has hold of the record on the table. -/
def TakesStops (o : Origin) : Prop :=
  match o.record with
  | some record => record.status = .pending ∨
      ∃ callback, o.failing = some callback ∧ callback.detached = false
  | none => o.launchStatus = .pending

/-- No failure callback under way has done with the events, or lost hold of its record. -/
def TakesEvents (o : Origin) : Prop :=
  ∀ callback, o.failing = some callback → callback.nextStop = none ∧ callback.detached = false

theorem isReadOnly_of_pending (h : o.launchStatus = .pending) : o.isReadOnly = false := by
  cases hw : o.isReadOnly with
  | false => rfl
  | true => simp [launchStatus, hw] at h

theorem Stage.next_le {fate : OriginStatus} {registered : Bool} {record : OriginRecord}
    {callback : FailureCallback} (h : Stage fate registered (some record) (some callback)) :
    callback.detached = false ∧ callback.nextStop.getD 0 ≤ record.pieceStops.length := by
  cases h with
  | dropping => simp
  | stopping _ next _ _ _ hstops => exact ⟨rfl, hstops.2⟩

theorem recordFor_none (h : o.record = none) :
    o.recordFor = (⟨o.launchStatus, .empty, [], false⟩, { o with
      record := some ⟨o.launchStatus, .empty, [], false⟩
      registered := o.registered || decide (o.launchStatus = .pending) }) := by
  simp [recordFor, h]

theorem recordFor_some {record : OriginRecord} (h : o.record = some record) :
    o.recordFor = (record, o) := by simp [recordFor, h]

theorem Tracked.recordPieceStop (h : o.Tracked) (ht : o.TakesStops) (stop : PieceStop) :
    (o.recordPieceStop stop).Tracked := by
  unfold TakesStops at ht
  unfold Origin.recordPieceStop
  cases hr : o.record with
  | none =>
    rw [hr] at ht
    have hpending : o.launchStatus = .pending := ht
    rw [recordFor_none hr]
    simp only [hpending, decide_true, Bool.or_true, List.nil_append]
    have hfailing : o.failing = none := by
      cases hf : o.failing with
      | none => rfl
      | some callback =>
        have hfate := (h.stage.callback hf).2.1
        rw [hpending] at hfate
        cases hfate
    have hwritable := isReadOnly_of_pending hpending
    have howing := h.owing
    simp only [owed, hfailing, hr] at howing
    constructor
    · simp only [hfailing]
      exact .waiting _ rfl
    · exact fun _ => hwritable
    · intro event
      have hq := h.queued event
      simpa [recorded, hr, JsSet.empty] using hq
    · intro event
      simpa [launches, releases, drops] using h.balanced event
    · intro hc other
      have ho := howing hc other
      simp [stopsRecorded, stopsRun, owed, hfailing, List.count_singleton] at ho ⊢
      omega
    · intro hc
      have hq := h.quiet hc
      simpa [drops, stopsRun] using hq
  | some record =>
    rw [hr] at ht
    rw [recordFor_some hr]
    have hstage : Stage o.launchStatus o.registered
        (some { record with pieceStops := record.pieceStops ++ [stop] }) o.failing := by
      have hs := h.stage
      rw [hr] at hs
      generalize o.registered = registered, o.failing = failing at hs ht ⊢
      cases hs with
      | waiting _ hs => exact .waiting _ hs
      | settled _ hs hf =>
        obtain hp | ⟨_, hnone, -⟩ := ht
        · exact absurd (hs.symm.trans hp) hf
        · cases hnone
      | dropping _ hs hf => exact .dropping _ hs hf
      | stopping _ next hs hf hevents hstops =>
        apply Stage.stopping { record with pieceStops := record.pieceStops ++ [stop] } next hs hf
          hevents
        simp
        omega
    have howed : ∀ other, List.count other (owed { o with
        record := some { record with pieceStops := record.pieceStops ++ [stop] }
        log := o.log ++ [.stopRecorded stop] }) = o.owed.count other + [stop].count other := by
      intro other
      cases hf : o.failing with
      | none => simp [owed, hr, hf]
      | some callback =>
        rw [hf] at hstage
        have hs := h.stage
        rw [hr, hf] at hs
        obtain ⟨hd, hle⟩ := hs.next_le
        simp only [owed, held, hr, hf, hd]
        simp only [Bool.false_eq_true, if_false, List.drop_append_of_le_length hle,
          List.count_append]
    constructor
    · exact hstage
    · exact h.writable
    · intro event
      have hq := h.queued event
      simpa [recorded, hr] using hq
    · intro event
      simpa [launches, releases, drops] using h.balanced event
    · intro hc other
      have ho := h.owing hc other
      rw [howed]
      simp [stopsRecorded, stopsRun, List.count_singleton] at ho ⊢
      omega
    · intro hc
      have hq := h.quiet hc
      simpa [drops, stopsRun] using hq

section RecordEvent

variable (o : Origin) (event : QueuedEvent)

theorem recordEvent_stopsRecorded (stop : PieceStop) :
    (o.recordEvent event).stopsRecorded stop = o.stopsRecorded stop := by
  by_cases hq : event ∈ o.queue <;> simp [Origin.recordEvent, stopsRecorded, hq]

theorem recordEvent_stopsRun (stop : PieceStop) :
    (o.recordEvent event).stopsRun stop = o.stopsRun stop := by
  by_cases hq : event ∈ o.queue <;> simp [Origin.recordEvent, stopsRun, hq]

theorem recordEvent_drops (e : QueuedEvent) : (o.recordEvent event).drops e = o.drops e := by
  by_cases hq : event ∈ o.queue <;> simp [Origin.recordEvent, drops, hq]

theorem recordEvent_launchStatus : (o.recordEvent event).launchStatus = o.launchStatus := by
  cases hr : o.record <;> simp [Origin.recordEvent, recordFor, launchStatus, hr]

theorem recordEvent_owed : (o.recordEvent event).owed = o.owed := by
  cases hr : o.record with
  | none =>
    cases hf : o.failing with
    | none => simp [owed, Origin.recordEvent, recordFor, hr, hf]
    | some callback =>
      cases hd : callback.detached <;>
        simp [owed, held, Origin.recordEvent, recordFor, hr, hf, hd]
  | some record =>
    cases hf : o.failing with
    | none => simp [owed, Origin.recordEvent, recordFor, hr, hf]
    | some callback =>
      cases hd : callback.detached <;>
        simp [owed, held, Origin.recordEvent, recordFor, hr, hf, hd]

theorem mem_recorded_recordEvent (e : QueuedEvent) :
    e ∈ (o.recordEvent event).recorded ↔ e = event ∨ e ∈ o.recorded := by
  cases hr : o.record with
  | none =>
    have hmem : e ∈ (JsSet.empty.add event).items ↔ e = event ∨ e ∈ JsSet.empty := JsSet.mem_add
    simpa [recorded, Origin.recordEvent, recordFor, hr] using hmem
  | some record =>
    have hmem : e ∈ (record.events.add event).items ↔ e = event ∨ e ∈ record.events.items :=
      JsSet.mem_add
    simpa [recorded, Origin.recordEvent, recordFor, hr] using hmem

theorem recordEvent_balanced (e : QueuedEvent)
    (h : o.launches e = o.releases e + o.drops e + if e ∈ o.queue then 1 else 0) :
    (o.recordEvent event).launches e =
      (o.recordEvent event).releases e + (o.recordEvent event).drops e +
        if e ∈ (o.recordEvent event).queue then 1 else 0 := by
  simp only [Origin.recordEvent, launches, releases, drops, JsSet.mem_add] at h ⊢
  by_cases hq : event ∈ o.queue
  · have hiff : e = event ∨ e ∈ o.queue ↔ e ∈ o.queue := ⟨fun hor => hor.elim (· ▸ hq) id, .inr⟩
    simpa only [hq, if_true, hiff] using h
  · by_cases he : e = event
    · subst he
      simp [hq] at h ⊢
      omega
    · simpa [hq, he, Ne.symm he] using h

end RecordEvent

theorem items_add_ne_nil (s : JsSet QueuedEvent) (event : QueuedEvent) :
    (s.add event).items ≠ [] := by
  have hmem : event ∈ (s.add event).items := JsSet.mem_add.2 (.inl rfl)
  exact List.ne_nil_of_mem hmem

/-- An event recorded on an origin that has settled keeps an entry on the table, for the
dispatcher to ask. -/
theorem Stage.recordEvent {o : Origin}
    (h : Stage o.launchStatus o.registered o.record o.failing) (ht : o.TakesEvents)
    (event : QueuedEvent) :
    Stage o.launchStatus (o.recordEvent event).registered (o.recordEvent event).record
      (o.recordEvent event).failing := by
  unfold TakesEvents at ht
  cases hr : o.record with
  | none =>
    simp only [Origin.recordEvent, recordFor_none hr]
    rw [hr] at h
    generalize o.registered = registered, o.failing = failing at h ht ⊢
    cases h with
    | idle =>
      by_cases hp : o.launchStatus = .pending
      · simp only [hp, decide_true, Bool.or_true]
        exact .waiting _ rfl
      · simp only [hp, decide_false, Bool.or_false]
        exact .settled _ rfl hp rfl (items_add_ne_nil _ _)
    | detached => cases (ht _ rfl).2
  | some record =>
    simp only [Origin.recordEvent, recordFor_some hr]
    rw [hr] at h
    generalize o.registered = registered, o.failing = failing at h ht ⊢
    cases h with
    | waiting _ hs => exact .waiting _ hs
    | settled _ hs hf hstops => exact .settled _ hs hf hstops (items_add_ne_nil _ _)
    | dropping _ hs hf => exact .dropping _ hs hf
    | stopping => cases (ht _ rfl).1

theorem Tracked.recordEvent {o : Origin} (h : o.Tracked) (ht : o.TakesEvents)
    (event : QueuedEvent) : (o.recordEvent event).Tracked := by
  constructor
  · rw [recordEvent_launchStatus]
    exact h.stage.recordEvent ht event
  · intro hreg
    have hor : o.registered = true ∨ o.launchStatus = .pending := by
      cases hr : o.record with
      | none => simpa [Origin.recordEvent, recordFor_none hr] using hreg
      | some record => simpa [Origin.recordEvent, recordFor_some hr] using Or.inl hreg
    have hwritable : o.isReadOnly = false := hor.elim h.writable isReadOnly_of_pending
    cases hr : o.record <;> simpa [Origin.recordEvent, recordFor, hr] using hwritable
  · intro e
    rw [mem_recorded_recordEvent, ← h.queued]
    exact JsSet.mem_add
  · intro e
    exact o.recordEvent_balanced event e (h.balanced e)
  · rw [recordEvent_launchStatus, recordEvent_owed]
    intro hc stop
    rw [recordEvent_stopsRecorded, recordEvent_stopsRun]
    exact h.owing hc stop
  · rw [recordEvent_launchStatus]
    intro hf
    have hq := h.quiet hf
    constructor
    · intro e
      rw [recordEvent_drops]
      exact hq.1 e
    · intro stop
      rw [recordEvent_stopsRun]
      exact hq.2 stop

/-- What may be recorded. A piece stop is to be run if its transaction fails, so it must come
before the fate is known, or during the failure callback. An event may come after, since the
dispatcher asks for its origin's status, unless a failure callback under way takes the record
away from it. -/
def Allows (o : Origin) : Act → Prop
  | .recordPieceStop _ => o.TakesStops
  | .recordEvent _ => o.TakesEvents
  | _ => True

theorem Tracked.step {o : Origin} (h : o.Tracked) {act : Act} (ha : o.Allows act) :
    (o.step act).Tracked := by
  cases act with
  | moveTo next => exact h.moveTo next
  | commitCallback => exact h.commitCallback
  | continueFailure => exact h.continueFailure
  | recordEvent event => exact h.recordEvent ha event
  | recordPieceStop stop => exact h.recordPieceStop ha stop
  | noteRerun => exact h.noteRerun
  | release event => exact h.release event
  | dispatch event sameSpace => exact h.dispatch event sameSpace

end Origin

end SpeculationLineage

namespace SpeculationLineage

namespace Origin

variable {o : Origin} {callback : FailureCallback}

/-- What the lineage promises of one transaction. -/
structure SettledOnce (o : Origin) : Prop where
  /-- An event is on the queue until it is released or dropped, once. -/
  accounted : ∀ event, o.launches event =
    o.releases event + o.drops event + if event ∈ o.queue then 1 else 0
  stopsRun : o.launchStatus = .failed → o.CallbackDone →
    ∀ stop, o.stopsRun stop = o.stopsRecorded stop
  /-- A failure callback ends, and leaves nothing on the queue. -/
  ends : ∃ n, (Origin.continueFailure^[n] o).failing = none
  flushes : o.failing ≠ none → o.continueFailure.failing = none →
    o.continueFailure.queue.items = []
  /-- An event launched after that is dropped when its turn comes. -/
  dropsLate : o.launchStatus = .failed → o.CallbackDone → ∀ event ∈ o.queue, ∀ sameSpace,
    (o.dispatch event sameSpace).drops event = o.drops event + 1
  quiet : o.launchStatus ≠ .failed → (∀ event, o.drops event = 0) ∧ ∀ stop, o.stopsRun stop = 0
  forgotten : o.launchStatus ≠ .pending → o.CallbackDone → o.queue.items = [] → o.record = none

theorem Tracked.recorded_nil (h : o.Tracked) : o.recorded = [] ↔ o.queue.items = [] := by
  rw [List.eq_nil_iff_forall_not_mem, List.eq_nil_iff_forall_not_mem]
  exact forall_congr' fun event => not_congr (h.queued event).symm

theorem dropQueuedEvent_failing_ne_none (hf : o.failing = some callback) (event : QueuedEvent)
    (reason : String) (quiet : Bool) : (o.dropQueuedEvent event reason quiet).failing ≠ none := by
  have heq : (o.dropQueuedEvent event reason quiet).failing = (o.forget event).failing := rfl
  rw [heq]
  obtain ⟨-, hcase⟩ | ⟨record, -, -, -, -, hcase⟩ | ⟨record, -, -, hcase⟩ :=
    o.forget_cases event <;> simp [hcase, hf]

theorem Tracked.flushes (h : o.Tracked) (hf : o.failing ≠ none)
    (hend : o.continueFailure.failing = none) : o.continueFailure.queue.items = [] := by
  obtain ⟨callback, hf⟩ := Option.ne_none_iff_exists'.1 hf
  obtain ⟨event, -, heq⟩ | ⟨hnil, heq⟩ := h.callback_cases hf
  · rw [heq] at hend
    exact absurd hend (dropQueuedEvent_failing_ne_none hf _ _ _)
  · have hqueue : (o.continueStops callback (callback.nextStop.getD 0)).queue = o.queue := by
      unfold Origin.continueStops
      split <;> rfl
    rw [heq, hqueue]
    exact h.recorded_nil.1 hnil

/-- The hooks that a failure callback has still to call. -/
def hooksLeft (o : Origin) : Nat := o.queue.size + o.owed.length

theorem Tracked.hooksLeft_lt (h : o.Tracked) (hf : o.failing = some callback) :
    o.continueFailure.failing = none ∨ o.continueFailure.hooksLeft < o.hooksLeft := by
  obtain ⟨event, hq, heq⟩ | ⟨hnil, heq⟩ := h.callback_cases hf
  · apply Or.inr
    rw [heq]
    have hsize : (o.queue.delete event).size < o.queue.size := by
      apply List.length_filter_lt_length_iff_exists.2
      exact ⟨event, hq, by simp⟩
    have howed : (o.dropQueuedEvent event (o.failureReason event) o.rerun).owed.length =
        o.owed.length := congrArg List.length (o.owed_forget event)
    have hqueue : (o.dropQueuedEvent event (o.failureReason event) o.rerun).queue =
        o.queue.delete event := rfl
    rw [hooksLeft, hooksLeft, howed, hqueue]
    omega
  · rw [heq]
    unfold Origin.continueStops
    cases hstop : (o.held callback).2[callback.nextStop.getD 0]? with
    | none => exact .inl rfl
    | some stop =>
      apply Or.inr
      have hlt := (List.getElem?_eq_some_iff.1 hstop).1
      cases hr : o.record with
      | none => simp [held, hr] at hlt
      | some record =>
        cases hd : callback.detached with
        | true => simp [held, hr, hd] at hlt
        | false =>
          simp only [held, hr, hd, Bool.false_eq_true, if_false] at hlt
          simp [hooksLeft, owed, held, hr, hd, hf]
          omega

theorem Tracked.ends (h : o.Tracked) : ∃ n, (Origin.continueFailure^[n] o).failing = none := by
  induction hleft : o.hooksLeft using Nat.strongRecOn generalizing o with
  | ind left ih =>
    cases hf : o.failing with
    | none => exact ⟨0, hf⟩
    | some callback =>
      obtain hend | hlt := h.hooksLeft_lt hf
      · exact ⟨1, hend⟩
      · obtain ⟨n, hn⟩ := ih _ (hleft ▸ hlt) h.continueFailure rfl
        exact ⟨n + 1, hn⟩

/-- After the callbacks a record holds events of a settled origin, and nothing else. -/
theorem Tracked.record_of_done (h : o.Tracked) (hdone : o.CallbackDone) :
    o.record = none ∨ ∃ record, o.record = some record ∧ record.status = o.launchStatus ∧
      record.pieceStops = [] ∧ record.events.items ≠ [] := by
  have hs := h.stage
  rw [hdone.1, hdone.2] at hs
  generalize o.record = record at hs ⊢
  cases hs with
  | idle => exact .inl rfl
  | settled record hs hf hstops hevents => exact .inr ⟨record, rfl, hs, hstops, hevents⟩

theorem Tracked.drops_dispatch (h : o.Tracked) (hfate : o.launchStatus = .failed)
    (hdone : o.CallbackDone) {event : QueuedEvent} (hq : event ∈ o.queue) (sameSpace : Bool) :
    (o.dispatch event sameSpace).drops event = o.drops event + 1 := by
  have hstatus : o.originStatus = .failed := by
    obtain hr | ⟨record, hr, hs, -⟩ := h.record_of_done hdone
    · have hmem := (h.queued event).1 hq
      simp [recorded, hr] at hmem
    · simp [originStatus, hr, hs, hfate]
  simp [Origin.dispatch, hq, hstatus, Origin.dropQueuedEvent, drops]

theorem Tracked.settledOnce (h : o.Tracked) : o.SettledOnce := by
  constructor
  · exact h.balanced
  · intro hfate hdone stop
    have ho := h.owing (by simp [hfate]) stop
    have howed : o.owed = [] := by
      obtain hr | ⟨record, hr, -, hstops, -⟩ := h.record_of_done hdone
      · simp [owed, hdone.2, hr]
      · simp [owed, hdone.2, hr, hstops]
    rw [ho, howed, List.count_nil, Nat.add_zero]
  · exact h.ends
  · exact h.flushes
  · intro hfate hdone event hq sameSpace
    exact h.drops_dispatch hfate hdone hq sameSpace
  · exact h.quiet
  · intro _ hdone hempty
    obtain hr | ⟨record, hr, -, -, hevents⟩ := h.record_of_done hdone
    · exact hr
    · have hnil := h.recorded_nil.2 hempty
      simp only [recorded, hr, Option.map_some, Option.getD_some] at hnil
      exact absurd hnil hevents

end Origin

variable {ω : Type} [DecidableEq ω]

/-- Each step of the run is one its origin allows at that point. -/
def Careful (l : Lineage ω) : List (ω × Act) → Prop
  | [] => True
  | m :: ms => (l m.1).Allows m.2 ∧ Careful (step l m) ms

theorem step_tracked {l : Lineage ω} (h : ∀ w, (l w).Tracked) {m : ω × Act}
    (hm : (l m.1).Allows m.2) (w : ω) : (step l m w).Tracked := by
  by_cases hw : w = m.1
  · subst hw
    simpa [step] using (h m.1).step hm
  · simpa [step, hw] using h w

theorem run_tracked {l : Lineage ω} (h : ∀ w, (l w).Tracked) {ms : List (ω × Act)}
    (hms : Careful l ms) (w : ω) : (run l ms w).Tracked := by
  induction ms generalizing l with
  | nil => exact h w
  | cons m ms ih => exact ih (step_tracked h hms.1) hms.2

/-- In every careful run, from transactions that nothing was recorded of, each launch is
settled once and forgotten. -/
theorem launches_settled_once {l : Lineage ω} (hl : ∀ w, (l w).Fresh) {ms : List (ω × Act)}
    (hms : Careful l ms) (w : ω) : (run l ms w).SettledOnce :=
  (run_tracked (fun w => (hl w).tracked) hms w).settledOnce

/-- A transaction that nothing was recorded of. -/
def Origin.start (isReadOnly : Bool) (txStatus : TxStatus) : Origin :=
  ⟨isReadOnly, txStatus, false, none, none, false, .empty, []⟩

theorem Origin.start_fresh (isReadOnly : Bool) (txStatus : TxStatus) :
    (Origin.start isReadOnly txStatus).Fresh := ⟨rfl, rfl, rfl, rfl, rfl⟩

/-- An event and a stop recorded in time, and a transaction that fails. -/
theorem launches_settled_once_failed :
    (run (fun _ : Unit => Origin.start false .ready)
      [((), .recordEvent ⟨0, "event"⟩), ((), .recordPieceStop ⟨0, false⟩), ((), .moveTo .error),
        ((), .commitCallback), ((), .continueFailure), ((), .continueFailure),
        ((), .continueFailure)] ()).SettledOnce := by
  apply launches_settled_once fun _ => Origin.start_fresh false .ready
  constructor
  · intro callback hf
    cases hf
  constructor
  · exact .inl rfl
  · exact ⟨trivial, trivial, trivial, trivial, trivial, trivial⟩

/-- A stop recorded on a transaction that has failed never runs, and its record stays on the
table with nothing on the queue. -/
theorem late_stop_left_behind :
    let o := run (fun _ : Unit => Origin.start false .ready)
      [((), .moveTo .error), ((), .recordPieceStop ⟨0, false⟩)] ()
    o.launchStatus = .failed ∧ o.CallbackDone ∧ o.stopsRecorded ⟨0, false⟩ = 1 ∧
      o.stopsRun ⟨0, false⟩ = 0 ∧ o.queue.items = [] ∧ o.record ≠ none ∧ ¬ o.SettledOnce := by
  refine ⟨rfl, ⟨rfl, rfl⟩, rfl, rfl, rfl, ?_, ?_⟩
  · intro h
    cases h
  · intro h
    have hr := h.forgotten (by decide) ⟨rfl, rfl⟩ rfl
    cases hr

end SpeculationLineage
