import CommonFabric.EventAppendQueue
import CommonFabric.Checked

/-!
# What a run of the event append queue submits and settles

The queue holds, in the order they came, the entries that have not departed. An entry is
chosen where it stands first of its stream, and none departs but by the answer to its own
append; over a run that orders each stream's appends and settles each entry once.
-/

namespace EventAppendQueue

def Event.arrival : Event → Option Queued
  | .enqueued entry => some entry
  | _ => none

def Event.departure : Event → Option Nat
  | .departed entry _ => some entry.ref
  | _ => none

def Event.settlement : Event → Option Nat
  | .settled ref _ => some ref
  | _ => none

/-- The entries that came, in order. -/
def arrivals (backlog : List Queued) (trace : List Event) : List Queued :=
  backlog ++ trace.filterMap Event.arrival

/-- The entries that left. -/
def departures (trace : List Event) : List Nat := trace.filterMap Event.departure

/-- The entries whose firer was answered. -/
def settlements (trace : List Event) : List Nat := trace.filterMap Event.settlement

/-- An entry with none of its stream before it. -/
def FirstOfStream (queue : List Queued) (entry : Queued) : Prop :=
  ∃ before after, queue = before ++ entry :: after ∧
    ∀ other ∈ before, other.append.sidecarId ≠ entry.append.sidecarId

namespace FirstOfStream

theorem mem {queue : List Queued} {entry : Queued} (h : FirstOfStream queue entry) :
    entry ∈ queue := by
  obtain ⟨before, after, rfl, -⟩ := h
  simp

theorem append {queue : List Queued} {entry : Queued} (h : FirstOfStream queue entry)
    (later : List Queued) : FirstOfStream (queue ++ later) entry := by
  obtain ⟨before, after, rfl, hbefore⟩ := h
  exact ⟨before, after ++ later, by simp, hbefore⟩

theorem head (entry : Queued) (rest : List Queued) : FirstOfStream (entry :: rest) entry :=
  ⟨[], rest, rfl, by simp⟩

/-- In a queue that ascends, no entry of the stream is earlier. -/
theorem not_lt {queue : List Queued} {entry other : Queued} (h : FirstOfStream queue entry)
    (hsorted : queue.Pairwise fun a b => a.ref < b.ref) (hother : other ∈ queue)
    (hstream : other.append.sidecarId = entry.append.sidecarId) : ¬other.ref < entry.ref := by
  obtain ⟨before, after, rfl, hbefore⟩ := h
  rcases List.mem_append.1 hother with hmem | hmem
  · exact absurd hstream (hbefore other hmem)
  · have hafter := (List.pairwise_append.1 hsorted).2.1
    rcases List.mem_cons.1 hmem with rfl | hmem
    · exact Nat.lt_irrefl _
    · exact Nat.lt_asymm ((List.pairwise_cons.1 hafter).1 other hmem)

end FirstOfStream

section
variable {o : Options}

/-- The scan passes over entries of held streams alone. -/
theorem scan_first {pacing : EventAppendPacing} {at_ : ℚ} {queue passed : List Queued} {acc : Scan}
    {entry : Queued} (hheld : ∀ other ∈ passed, other.append.sidecarId ∈ acc.held)
    (h : (scan o pacing at_ queue acc).1 = some entry) : FirstOfStream (passed ++ queue) entry := by
  induction queue generalizing passed acc with
  | nil => cases h
  | cons x rest ih =>
    rw [scan] at h
    have hsplit : passed ++ x :: rest = (passed ++ [x]) ++ rest := by simp
    by_cases hx : acc.held.contains x.append.sidecarId = true
    · rw [if_pos hx] at h
      rw [hsplit]
      refine ih (fun other hother => ?_) h
      rcases List.mem_append.1 hother with hother | hother
      · exact hheld other hother
      · obtain rfl := List.mem_singleton.1 hother
        exact List.contains_iff_mem.1 hx
    rw [if_neg hx] at h
    by_cases htoken : 1 ≤ (refilledTokens o pacing (acc.buckets.get x.append.sidecarId) at_).tokens
    · rw [if_pos htoken] at h
      obtain rfl := Option.some.inj h
      refine ⟨passed, rest, rfl, fun other hother heq => hx ?_⟩
      exact List.contains_iff_mem.2 (heq ▸ hheld other hother)
    · rw [if_neg htoken] at h
      rw [hsplit]
      refine ih (fun other hother => ?_) h
      rcases List.mem_append.1 hother with hother | hother
      · exact List.mem_cons_of_mem _ (hheld other hother)
      · obtain rfl := List.mem_singleton.1 hother
        exact List.mem_cons_self

/-- A firer that waits is answered, and no other. -/
def answers (s : State) (ref : Nat) (outcome : EventAppendOutcome) : List Event :=
  if s.outcomes.contains ref then [.settled ref outcome] else []

/-- Nothing is seen. An entry may be chosen, which stands first of its stream. -/
structure Quiet (s s' : State) : Prop where
  queue : s'.queue = s.queue
  outcomes : s'.outcomes = s.outcomes
  nextRef : s'.nextRef = s.nextRef
  chosen : ∀ e, s'.phase = .chosen e → FirstOfStream s.queue e ∨ s.phase = .chosen e
  sending : ∀ e, s'.phase = .sending e → s.phase = .sending e

theorem mem_answers {s : State} {ref : Nat} {outcome : EventAppendOutcome} {event : Event}
    (h : event ∈ answers s ref outcome) : ∃ ref outcome, event = .settled ref outcome := by
  unfold answers at h
  split at h
  · exact ⟨ref, outcome, List.mem_singleton.1 h⟩
  · cases h

/-- What a step does to the queue and its firers, with what it lets be seen. -/
inductive Moves (s : State) : State → List Event → Prop where
  | quiet (s' : State) (h : Quiet s s') : Moves s s' []
  | arrives (s' : State) (entry : Queued) (href : entry.ref = s.nextRef)
      (hqueue : s'.queue = s.queue ++ [entry])
      (houtcomes : s'.outcomes = s.outcomes ++ [entry.ref]) (hnext : s'.nextRef = s.nextRef + 1)
      (hphase : s'.phase = s.phase ∨ s'.phase = .looking) : Moves s s' [.enqueued entry]
  | arrivesLate (s' : State) (entry : Queued) (outcome : EventAppendOutcome)
      (href : entry.ref = s.nextRef) (hqueue : s'.queue = s.queue ++ [entry])
      (houtcomes : s'.outcomes = s.outcomes) (hnext : s'.nextRef = s.nextRef + 1)
      (hphase : s'.phase = s.phase) : Moves s s' [.enqueued entry, .settled entry.ref outcome]
  | submits (s' : State) (entry : Queued) (commit : ClientCommit) (hphase : s.phase = .chosen entry)
      (hqueue : s'.queue = s.queue) (houtcomes : s'.outcomes = s.outcomes)
      (href : s'.nextRef = s.nextRef) (hsending : s'.phase = .sending entry) :
      Moves s s' [.submitted entry commit]
  | departs (s' : State) (entry : Queued) (why : Departure) (outcome : EventAppendOutcome)
      (reported : List Event) (hphase : s.phase = .sending entry)
      (hqueue : s'.queue = s.queue.filter fun other => other.ref ≠ entry.ref)
      (houtcomes : s'.outcomes = s.outcomes.filter fun ref => ref ≠ entry.ref)
      (href : s'.nextRef = s.nextRef) (hlooking : s'.phase = .looking)
      (hreported : ∀ event ∈ reported, ∃ message, event = .refused entry message) :
      Moves s s' (.departed entry why :: (answers s entry.ref outcome ++ reported))
  | closes (s' : State) (outcome : EventAppendOutcome) (hqueue : s'.queue = s.queue)
      (houtcomes : s'.outcomes = []) (href : s'.nextRef = s.nextRef)
      (hphase : s'.phase = s.phase ∨ s'.phase = .looking) :
      Moves s s' (s.outcomes.map fun ref => .settled ref outcome)

theorem Quiet.refl (s : State) : Quiet s s := ⟨rfl, rfl, rfl, fun _ h => .inr h, fun _ h => h⟩

/-- A phase in which nothing is chosen or sent may be taken at any time. -/
theorem Quiet.phase (s : State) {s' : State} (hqueue : s'.queue = s.queue)
    (houtcomes : s'.outcomes = s.outcomes) (href : s'.nextRef = s.nextRef)
    (hchosen : ∀ e, s'.phase ≠ .chosen e) (hsending : ∀ e, s'.phase ≠ .sending e) : Quiet s s' :=
  ⟨hqueue, houtcomes, href, fun e h => absurd h (hchosen e), fun e h => absurd h (hsending e)⟩

theorem kick_quiet (s : State) : Quiet s (kick s) := by
  unfold kick
  split
  · split
    · exact .refl s
    · exact .phase s rfl rfl rfl nofun nofun
  · exact .refl s

theorem wake_quiet (s : State) : Quiet s (wake s) := by
  unfold wake
  split
  · exact .phase s rfl rfl rfl nofun nofun
  · exact .refl s

theorem kick_phase (s : State) : (kick s).phase = s.phase ∨ (kick s).phase = .looking := by
  unfold kick
  split
  · split
    · exact .inl rfl
    · exact .inr rfl
  · exact .inl rfl

theorem wake_phase (s : State) : (wake s).phase = s.phase ∨ (wake s).phase = .looking := by
  unfold wake
  split
  · exact .inr rfl
  · exact .inl rfl

theorem nextSendable_quiet (at_ : ℚ) (s : State) : Quiet s (nextSendable o at_ s) := by
  unfold nextSendable
  split
  · split
    · exact .refl s
    · rename_i entry rest hqueue
      refine ⟨rfl, rfl, rfl, fun e h => .inl ?_, fun e h => by cases h⟩
      cases h
      rw [hqueue]
      exact .head entry rest
  · rename_i pacing hpacing
    split
    · rename_i entry acc hscan
      refine ⟨rfl, rfl, rfl, fun e h => .inl ?_, fun e h => by cases h⟩
      cases h
      have hnone : ∀ other ∈ ([] : List Queued), other.append.sidecarId ∈ ([] : List EntityId) := by
        simp
      exact scan_first hnone (congrArg Prod.fst hscan)
    · exact .phase s rfl rfl rfl nofun nofun

theorem proceed_moves (at_ : ℚ) (s : State) :
    Moves s (proceed o at_ s).1 (proceed o at_ s).2 := by
  unfold proceed
  split
  · split
    · exact .quiet _ (.phase s rfl rfl rfl nofun nofun)
    · exact .quiet _ (nextSendable_quiet at_ s)
  · rename_i entry hphase
    split
    · exact .quiet _ (.phase s rfl rfl rfl nofun nofun)
    · exact .submits _ entry _ hphase rfl rfl rfl rfl
  · dsimp only
    split
    · exact .quiet _ (.phase s rfl rfl rfl nofun nofun)
    · have hkick := kick_quiet { s with phase := .idle }
      refine .quiet _ ⟨hkick.queue, hkick.outcomes, hkick.nextRef, fun e h => .inl ?_, fun e h => ?_⟩
      · exact (hkick.chosen e h).resolve_right nofun
      · cases hkick.sending e h
  · exact .quiet _ (.refl s)

theorem depart_moves {s : State} {entry : Queued} (hphase : s.phase = .sending entry)
    (why : Departure) {reported : List Event}
    (hreported : ∀ event ∈ reported, ∃ message, event = .refused entry message) :
    Moves s (depart entry why s).1 ((depart entry why s).2 ++ reported) :=
  .departs _ entry why _ reported hphase rfl rfl rfl rfl hreported

theorem answered_moves {s : State} {entry : Queued} (hphase : s.phase = .sending entry)
    (a : Answer) : Moves s (answered a entry s).1 (answered a entry s).2 := by
  have hdepart (why : Departure) : Moves s (depart entry why s).1 (depart entry why s).2 := by
    have hnone : ∀ event ∈ ([] : List Event), ∃ message, event = .refused entry message := by simp
    simpa using depart_moves hphase why hnone
  unfold answered
  split
  · exact hdepart .accepted
  · rename_i e
    split
    · exact hdepart .duplicate
    · split
      · exact depart_moves hphase (.refused e.message) (by simp)
      · exact .quiet _ (.phase s rfl rfl rfl nofun nofun)

theorem enqueue_moves (fire : Fire) (s : State) :
    Moves s (enqueue fire s).1 (enqueue fire s).2 := by
  unfold enqueue
  dsimp only
  split
  · exact .arrivesLate _ _ _ rfl rfl rfl rfl rfl
  · rename_i hopen
    have hkick (s : State) := kick_quiet s
    refine .arrives _ _ rfl (hkick _).queue (hkick _).outcomes (hkick _).nextRef ?_
    exact kick_phase _

theorem close_moves (s : State) : Moves s (close s).1 (close s).2 := by
  have hwake := wake_quiet { s with closed := true, outcomes := [] }
  exact .closes _ _ hwake.queue hwake.outcomes hwake.nextRef (wake_phase _)

theorem step_moves (s : State) (input : Input) :
    Moves s (step o s input).1 (step o s input).2 := by
  cases input with
  | enqueue fire => exact enqueue_moves fire s
  | kick => exact .quiet _ (kick_quiet s)
  | proceed at_ => exact proceed_moves at_ s
  | answer a =>
    rw [step]
    split
    · rename_i entry hphase
      exact answered_moves hphase a
    · exact .quiet _ (.refl s)
  | wake => exact .quiet _ (wake_quiet s)
  | close => exact close_moves s

/-- What the state and the trace of a run keep. -/
structure Kept (backlog : List Queued) (s : State) (trace : List Event) : Prop where
  ascending : (arrivals backlog trace).Pairwise fun a b => a.ref < b.ref
  fresh : ∀ e ∈ arrivals backlog trace, e.ref < s.nextRef
  queue : s.queue = (arrivals backlog trace).filter fun e => !(departures trace).contains e.ref
  first : ∀ e, s.phase = .chosen e ∨ s.phase = .sending e → FirstOfStream s.queue e
  sending : ∀ e, s.phase = .sending e → ∃ commit, .submitted e commit ∈ trace
  /-- An entry is submitted while it is there, and when those before it have left. -/
  submitted : ∀ before e commit after, trace = before ++ .submitted e commit :: after →
    e ∈ arrivals backlog before ∧ e.ref ∉ departures before ∧
      ∀ other ∈ arrivals backlog before, other.append.sidecarId = e.append.sidecarId →
        other.ref < e.ref → other.ref ∈ departures before
  departed : ∀ before e why after, trace = before ++ .departed e why :: after →
    ∃ commit, .submitted e commit ∈ before
  outcomes : s.outcomes.Nodup ∧ ∀ ref ∈ s.outcomes, ref < s.nextRef
  settled : (settlements trace).Nodup ∧
    ∀ ref ∈ settlements trace, ref < s.nextRef ∧ ref ∉ s.outcomes

theorem arrivals_append (backlog : List Queued) (trace events : List Event) :
    arrivals backlog (trace ++ events) =
      arrivals backlog trace ++ events.filterMap Event.arrival := by
  simp [arrivals]

theorem departures_append (trace events : List Event) :
    departures (trace ++ events) = departures trace ++ departures events := List.filterMap_append

theorem settlements_append (trace events : List Event) :
    settlements (trace ++ events) = settlements trace ++ settlements events := List.filterMap_append

namespace Kept

variable {backlog : List Queued} {s s' : State} {trace events : List Event}

section

variable (h : Kept backlog s trace)
include h

/-- The clauses about submissions, for events that submit nothing. -/
theorem submitted_append (hnone : ∀ e commit, .submitted e commit ∉ events) (before : List Event)
    (e : Queued) (commit : ClientCommit) (after : List Event)
    (hsplit : trace ++ events = before ++ .submitted e commit :: after) :
    e ∈ arrivals backlog before ∧ e.ref ∉ departures before ∧
      ∀ other ∈ arrivals backlog before, other.append.sidecarId = e.append.sidecarId →
        other.ref < e.ref → other.ref ∈ departures before := by
  rcases Trace.split_append hsplit with ⟨rest, htrace⟩ | ⟨mid, -, hevents⟩
  · exact h.submitted before e commit rest htrace
  · exact absurd (hevents ▸ by simp) (hnone e commit)

theorem departed_append (hnone : ∀ e why, .departed e why ∉ events) (before : List Event)
    (e : Queued) (why : Departure) (after : List Event)
    (hsplit : trace ++ events = before ++ .departed e why :: after) :
    ∃ commit, .submitted e commit ∈ before := by
  rcases Trace.split_append hsplit with ⟨rest, htrace⟩ | ⟨mid, -, hevents⟩
  · exact h.departed before e why rest htrace
  · exact absurd (hevents ▸ by simp) (hnone e why)

theorem queue_sorted : s.queue.Pairwise fun a b => a.ref < b.ref :=
  h.queue ▸ h.ascending.filter _

theorem quiet (hq : Quiet s s') : Kept backlog s' trace where
  ascending := h.ascending
  fresh := hq.nextRef ▸ h.fresh
  queue := hq.queue ▸ h.queue
  first e he := by
    rw [hq.queue]
    rcases he with he | he
    · exact (hq.chosen e he).elim id fun he => h.first e (.inl he)
    · exact h.first e (.inr (hq.sending e he))
  sending e he := h.sending e (hq.sending e he)
  submitted := h.submitted
  departed := h.departed
  outcomes := by
    rw [hq.outcomes, hq.nextRef]
    exact h.outcomes
  settled := by
    rw [hq.outcomes, hq.nextRef]
    exact h.settled

theorem departed_lt {ref : Nat} (href : ref ∈ departures trace) : ref < s.nextRef := by
  obtain ⟨event, hevent, hdeparture⟩ := List.mem_filterMap.1 href
  cases event with
  | departed e why =>
    obtain rfl := Option.some.inj hdeparture
    obtain ⟨before, after, rfl⟩ := List.append_of_mem hevent
    obtain ⟨commit, hcommit⟩ := h.departed before e why after rfl
    obtain ⟨first, second, rfl⟩ := List.append_of_mem hcommit
    have hmem := (h.submitted first e commit (second ++ .departed e why :: after) (by simp)).1
    refine h.fresh e ?_
    rw [List.append_assoc, arrivals_append]
    exact List.mem_append_left _ hmem
  | _ => cases hdeparture

/-- An entry comes, with `events` that say nothing else of entries. -/
theorem arrive {entry : Queued} {events : List Event}
    (harrival : events.filterMap Event.arrival = [entry]) (hnone : departures events = [])
    (hsubmitted : ∀ e commit, .submitted e commit ∉ events)
    (hdeparted : ∀ e why, .departed e why ∉ events) (href : entry.ref = s.nextRef)
    (hqueue : s'.queue = s.queue ++ [entry]) (hnext : s'.nextRef = s.nextRef + 1)
    (hphase : s'.phase = s.phase ∨ s'.phase = .looking)
    (houtcomes : s'.outcomes.Nodup ∧ ∀ ref ∈ s'.outcomes, ref < s'.nextRef)
    (hsettled : (settlements (trace ++ events)).Nodup ∧
      ∀ ref ∈ settlements (trace ++ events), ref < s'.nextRef ∧ ref ∉ s'.outcomes) :
    Kept backlog s' (trace ++ events) where
  ascending := by
    rw [arrivals_append, harrival, List.pairwise_append]
    refine ⟨h.ascending, List.pairwise_singleton _ _, fun a ha b hb => ?_⟩
    rw [List.mem_singleton.1 hb, href]
    exact h.fresh a ha
  fresh e he := by
    rw [arrivals_append, harrival] at he
    rw [hnext]
    rcases List.mem_append.1 he with he | he
    · exact Nat.lt_succ_of_lt (h.fresh e he)
    · rw [List.mem_singleton.1 he, href]
      exact Nat.lt_succ_self _
  queue := by
    have hkept : (!(departures trace).contains entry.ref) = true := by
      simp only [Bool.not_eq_true', List.contains_eq_mem, decide_eq_false_iff_not]
      intro hmem
      exact absurd (h.departed_lt hmem) (by simp [href])
    rw [hqueue, h.queue, arrivals_append, harrival, departures_append, hnone, List.append_nil,
      List.filter_append, List.filter_cons_of_pos (by exact hkept)]
    rfl
  first e he := by
    rw [hqueue]
    rcases hphase with hphase | hphase
    · exact (h.first e (hphase ▸ he)).append _
    · simp [hphase] at he
  sending e he := by
    rcases hphase with hphase | hphase
    · obtain ⟨commit, hcommit⟩ := h.sending e (hphase ▸ he)
      exact ⟨commit, List.mem_append_left _ hcommit⟩
    · simp [hphase] at he
  submitted := h.submitted_append hsubmitted
  departed := h.departed_append hdeparted
  outcomes := houtcomes
  settled := hsettled

theorem nextRef_unsettled : s.nextRef ∉ settlements trace := fun hmem =>
  Nat.lt_irrefl _ (h.settled.2 _ hmem).1

theorem nextRef_unanswered : s.nextRef ∉ s.outcomes := fun hmem =>
  Nat.lt_irrefl _ (h.outcomes.2 _ hmem)

/-- The entry that is sent is submitted when those of its stream before it have left. -/
theorem submits {entry : Queued} (commit : ClientCommit) (hphase : s.phase = .chosen entry)
    (hqueue : s'.queue = s.queue) (houtcomes : s'.outcomes = s.outcomes)
    (href : s'.nextRef = s.nextRef) (hsending : s'.phase = .sending entry) :
    Kept backlog s' (trace ++ [.submitted entry commit]) := by
  have harrivals : arrivals backlog (trace ++ [.submitted entry commit]) = arrivals backlog trace := by
    rw [arrivals_append]
    exact List.append_nil _
  have hdepartures : departures (trace ++ [.submitted entry commit]) = departures trace := by
    rw [departures_append]
    exact List.append_nil _
  have hsettlements : settlements (trace ++ [.submitted entry commit]) = settlements trace := by
    rw [settlements_append]
    exact List.append_nil _
  refine ⟨harrivals ▸ h.ascending, ?_, ?_, fun e he => ?_, fun e he => ?_,
    fun before e commit' after hsplit => ?_, h.departed_append (by simp), ?_, ?_⟩
  · rw [harrivals, href]
    exact h.fresh
  · rw [hqueue, harrivals, hdepartures]
    exact h.queue
  · rw [hqueue]
    rcases he with he | he
    · simp [hsending] at he
    · obtain rfl := Phase.sending.inj (hsending.symm.trans he)
      exact h.first _ (.inl hphase)
  · obtain rfl := Phase.sending.inj (hsending.symm.trans he)
    exact ⟨commit, by simp⟩
  · rcases Trace.split_append hsplit with ⟨rest, htrace⟩ | ⟨mid, hbefore, hevents⟩
    · exact h.submitted before e commit' rest htrace
    · obtain rfl : mid = [] := by
        cases mid with
        | nil => rfl
        | cons x mid => simp at hevents
      simp only [List.nil_append, List.cons.injEq, Event.submitted.injEq] at hevents
      obtain ⟨⟨rfl, -⟩, -⟩ := hevents
      obtain rfl : before = trace := by simpa using hbefore
      have hfirst := h.first entry (.inl hphase)
      have hmem := hfirst.mem
      rw [h.queue, List.mem_filter] at hmem
      refine ⟨hmem.1, by simpa using hmem.2, fun other hother hstream hlt => by_contra fun hnot => ?_⟩
      have hqueued : other ∈ s.queue := by
        rw [h.queue]
        exact List.mem_filter.2 ⟨hother, by simpa using hnot⟩
      exact hfirst.not_lt h.queue_sorted hqueued hstream hlt
  · rw [houtcomes, href]
    exact h.outcomes
  · rw [houtcomes, href, hsettlements]
    exact h.settled

/-- Only an entry whose append was sent leaves, and its firer is answered then or was before. -/
theorem departs {entry : Queued} (why : Departure) (outcome : EventAppendOutcome)
    {reported : List Event} (hphase : s.phase = .sending entry)
    (hqueue : s'.queue = s.queue.filter fun other => other.ref ≠ entry.ref)
    (houtcomes : s'.outcomes = s.outcomes.filter fun ref => ref ≠ entry.ref)
    (href : s'.nextRef = s.nextRef) (hlooking : s'.phase = .looking)
    (hreported : ∀ event ∈ reported, ∃ message, event = .refused entry message) :
    Kept backlog s'
      (trace ++ .departed entry why :: (answers s entry.ref outcome ++ reported)) := by
  have hreport {event : Event} (hevent : event ∈ answers s entry.ref outcome ++ reported) :
      (∃ ref outcome, event = .settled ref outcome) ∨ ∃ message, event = .refused entry message := by
    rcases List.mem_append.1 hevent with hevent | hevent
    · exact .inl (mem_answers hevent)
    · exact .inr (hreported event hevent)
  have hreported' : reported.filterMap Event.settlement = [] := by
    rw [List.filterMap_eq_nil_iff]
    intro event hevent
    obtain ⟨message, rfl⟩ := hreported event hevent
    rfl
  have hevents {β : Type} (f : Event → Option β) (hsettled : ∀ ref outcome, f (.settled ref outcome) = none)
      (hrefused : ∀ e message, f (.refused e message) = none) :
      (answers s entry.ref outcome ++ reported).filterMap f = [] := by
    rw [List.filterMap_eq_nil_iff]
    intro event hevent
    rcases hreport hevent with ⟨ref, outcome, rfl⟩ | ⟨message, rfl⟩
    · exact hsettled ref outcome
    · exact hrefused entry message
  have harrivals : arrivals backlog
      (trace ++ .departed entry why :: (answers s entry.ref outcome ++ reported)) =
        arrivals backlog trace := by
    rw [arrivals_append, List.filterMap_cons_none rfl, hevents _ (fun _ _ => rfl) fun _ _ => rfl,
      List.append_nil]
  have hdepartures : departures
      (trace ++ .departed entry why :: (answers s entry.ref outcome ++ reported)) =
        departures trace ++ [entry.ref] := by
    rw [departures_append]
    refine congrArg (departures trace ++ ·) ?_
    exact congrArg (entry.ref :: ·) (hevents Event.departure (fun _ _ => rfl) fun _ _ => rfl)
  have hsettlements : settlements
      (trace ++ .departed entry why :: (answers s entry.ref outcome ++ reported)) =
        settlements trace ++ if entry.ref ∈ s.outcomes then [entry.ref] else [] := by
    rw [settlements_append]
    refine congrArg (settlements trace ++ ·) ?_
    show (answers s entry.ref outcome ++ reported).filterMap Event.settlement = _
    rw [List.filterMap_append, hreported', List.append_nil]
    unfold answers
    by_cases hmem : entry.ref ∈ s.outcomes <;> simp [hmem, Event.settlement]
  have hentry := h.sending entry hphase
  refine ⟨harrivals ▸ h.ascending, ?_, ?_, fun e he => ?_, fun e he => ?_,
    h.submitted_append ?_, fun before e why' after hsplit => ?_, ?_, ?_⟩
  · rw [harrivals, href]
    exact h.fresh
  · rw [hqueue, harrivals, hdepartures, h.queue, List.filter_filter]
    refine List.filter_congr fun e _ => ?_
    simp [Bool.and_comm, eq_comm]
  · simp [hlooking] at he
  · simp [hlooking] at he
  · intro e commit hmem
    rcases List.mem_cons.1 hmem with hmem | hmem
    · cases hmem
    · rcases hreport hmem with ⟨ref, outcome, hcontra⟩ | ⟨message, hcontra⟩ <;> cases hcontra
  · rcases Trace.split_append hsplit with ⟨rest, htrace⟩ | ⟨mid, hbefore, hmiddle⟩
    · exact h.departed before e why' rest htrace
    cases mid with
    | nil =>
      obtain rfl : before = trace := by simpa using hbefore
      obtain ⟨rfl, -⟩ := Event.departed.inj (List.head_eq_of_cons_eq hmiddle)
      exact hentry
    | cons x mid =>
      have hmem : .departed e why' ∈ answers s entry.ref outcome ++ reported := by
        rw [List.tail_eq_of_cons_eq hmiddle]
        simp
      rcases hreport hmem with ⟨ref, outcome, hcontra⟩ | ⟨message, hcontra⟩ <;> cases hcontra
  · rw [houtcomes, href]
    exact ⟨h.outcomes.1.filter _, fun ref hmem => h.outcomes.2 ref (List.mem_of_mem_filter hmem)⟩
  · rw [houtcomes, href, hsettlements]
    by_cases hwaits : entry.ref ∈ s.outcomes
    · rw [if_pos hwaits]
      refine ⟨?_, fun ref href => ?_⟩
      · rw [List.nodup_append]
        refine ⟨h.settled.1, by simp, fun ref href ref' href' heq => ?_⟩
        rw [heq, List.mem_singleton.1 href'] at href
        exact (h.settled.2 _ href).2 hwaits
      · rcases List.mem_append.1 href with href | href
        · obtain ⟨hlt, hnot⟩ := h.settled.2 ref href
          exact ⟨hlt, fun hmem => hnot (List.mem_of_mem_filter hmem)⟩
        · obtain rfl := List.mem_singleton.1 href
          exact ⟨h.outcomes.2 _ hwaits, by simp⟩
    · rw [if_neg hwaits, List.append_nil]
      refine ⟨h.settled.1, fun ref href => ?_⟩
      obtain ⟨hlt, hnot⟩ := h.settled.2 ref href
      exact ⟨hlt, fun hmem => hnot (List.mem_of_mem_filter hmem)⟩

/-- Every firer that waits is answered. -/
theorem closes (outcome : EventAppendOutcome) (hqueue : s'.queue = s.queue)
    (houtcomes : s'.outcomes = []) (href : s'.nextRef = s.nextRef)
    (hphase : s'.phase = s.phase ∨ s'.phase = .looking) :
    Kept backlog s' (trace ++ s.outcomes.map fun ref => .settled ref outcome) := by
  have hsettlement : (s.outcomes.map fun ref => Event.settled ref outcome).filterMap
      Event.settlement = s.outcomes := by
    rw [List.filterMap_map]
    exact List.filterMap_some
  have hother {β : Type} (f : Event → Option β) (hf : ∀ ref, f (.settled ref outcome) = none) :
      (s.outcomes.map fun ref => Event.settled ref outcome).filterMap f = [] := by
    rw [List.filterMap_map, List.filterMap_eq_nil_iff]
    exact fun ref _ => hf ref
  have harrivals : arrivals backlog (trace ++ s.outcomes.map fun ref => .settled ref outcome) =
      arrivals backlog trace := by
    rw [arrivals_append, hother _ fun _ => rfl, List.append_nil]
  have hdepartures : departures (trace ++ s.outcomes.map fun ref => .settled ref outcome) =
      departures trace := by
    rw [departures_append]
    exact congrArg (departures trace ++ ·) (hother _ fun _ => rfl) |>.trans (List.append_nil _)
  have hsettlements : settlements (trace ++ s.outcomes.map fun ref => .settled ref outcome) =
      settlements trace ++ s.outcomes := by
    rw [settlements_append]
    exact congrArg (settlements trace ++ ·) hsettlement
  refine ⟨harrivals ▸ h.ascending, ?_, ?_, fun e he => ?_, fun e he => ?_,
    h.submitted_append (by simp), h.departed_append (by simp), ?_, ?_⟩
  · rw [harrivals, href]
    exact h.fresh
  · rw [hqueue, harrivals, hdepartures]
    exact h.queue
  · rw [hqueue]
    rcases hphase with hphase | hphase
    · exact h.first e (hphase ▸ he)
    · simp [hphase] at he
  · rcases hphase with hphase | hphase
    · obtain ⟨commit, hcommit⟩ := h.sending e (hphase ▸ he)
      exact ⟨commit, List.mem_append_left _ hcommit⟩
    · simp [hphase] at he
  · rw [houtcomes]
    exact ⟨List.nodup_nil, by simp⟩
  · rw [houtcomes, href, hsettlements]
    refine ⟨?_, fun ref href => ⟨?_, by simp⟩⟩
    · rw [List.nodup_append]
      refine ⟨h.settled.1, h.outcomes.1, fun ref href ref' href' heq => ?_⟩
      exact (h.settled.2 ref href).2 (heq ▸ href')
    · rcases List.mem_append.1 href with href | href
      · exact (h.settled.2 ref href).1
      · exact h.outcomes.2 ref href

theorem step (input : Input) :
    Kept backlog (EventAppendQueue.step o s input).1
      (trace ++ (EventAppendQueue.step o s input).2) := by
  generalize hnext : EventAppendQueue.step o s input = next
  have hmoves : Moves s next.1 next.2 := hnext ▸ step_moves s input
  obtain ⟨s', events⟩ := next
  cases hmoves with
  | quiet hq => simpa using h.quiet hq
  | arrives entry href hqueue houtcomes hnext hphase =>
    have hsettlements : settlements (trace ++ [.enqueued entry]) = settlements trace := by
      rw [settlements_append]
      exact List.append_nil _
    have hnew := href ▸ h.nextRef_unanswered
    refine h.arrive rfl rfl (by simp) (by simp) href hqueue hnext hphase ?_ ?_
    · rw [houtcomes, hnext]
      refine ⟨?_, fun ref hmem => ?_⟩
      · rw [List.nodup_append]
        refine ⟨h.outcomes.1, by simp, fun ref hmem ref' hmem' heq => hnew ?_⟩
        rwa [← List.mem_singleton.1 hmem', ← heq]
      · rcases List.mem_append.1 hmem with hmem | hmem
        · exact Nat.lt_succ_of_lt (h.outcomes.2 ref hmem)
        · rw [List.mem_singleton.1 hmem, href]
          exact Nat.lt_succ_self _
    · rw [hsettlements, houtcomes, hnext]
      refine ⟨h.settled.1, fun ref hmem => ?_⟩
      obtain ⟨hlt, hnot⟩ := h.settled.2 ref hmem
      refine ⟨Nat.lt_succ_of_lt hlt, fun hout => ?_⟩
      rcases List.mem_append.1 hout with hout | hout
      · exact hnot hout
      · rw [List.mem_singleton.1 hout, href] at hlt
        exact Nat.lt_irrefl _ hlt
  | arrivesLate entry outcome href hqueue houtcomes hnext hphase =>
    have hsettlements : settlements (trace ++ [.enqueued entry, .settled entry.ref outcome]) =
        settlements trace ++ [entry.ref] := settlements_append _ _
    refine h.arrive rfl rfl (by simp) (by simp) href hqueue hnext (.inl hphase) ?_ ?_
    · rw [houtcomes, hnext]
      exact ⟨h.outcomes.1, fun ref hmem => Nat.lt_succ_of_lt (h.outcomes.2 ref hmem)⟩
    · rw [hsettlements, houtcomes, hnext]
      refine ⟨?_, fun ref hmem => ?_⟩
      · rw [List.nodup_append]
        refine ⟨h.settled.1, by simp, fun ref hmem ref' hmem' heq => h.nextRef_unsettled ?_⟩
        rwa [← href, ← List.mem_singleton.1 hmem', ← heq]
      · rcases List.mem_append.1 hmem with hmem | hmem
        · obtain ⟨hlt, hnot⟩ := h.settled.2 ref hmem
          exact ⟨Nat.lt_succ_of_lt hlt, hnot⟩
        · rw [List.mem_singleton.1 hmem, href]
          exact ⟨Nat.lt_succ_self _, h.nextRef_unanswered⟩
  | submits entry commit hphase hqueue houtcomes href hsending =>
    exact h.submits commit hphase hqueue houtcomes href hsending
  | departs entry why outcome reported hphase hqueue houtcomes href hlooking hreported =>
    exact h.departs why outcome hphase hqueue houtcomes href hlooking hreported
  | closes outcome hqueue houtcomes href hphase =>
    exact h.closes outcome hqueue houtcomes href hphase

theorem run (inputs : List Input) :
    Kept backlog (EventAppendQueue.run o s inputs).1
      (trace ++ (EventAppendQueue.run o s inputs).2) := by
  induction inputs generalizing s trace with
  | nil => simpa [EventAppendQueue.run] using h
  | cons input inputs ih =>
    have hlater := ih (h.step (o := o) input)
    rwa [List.append_assoc] at hlater

end

end Kept

theorem kept_loaded (localSeq : Int) (backlog : List QueuedEventAppend) :
    Kept (loaded localSeq backlog).queue (loaded localSeq backlog) [] where
  ascending := by
    simp only [arrivals, List.filterMap_nil, List.append_nil, loaded]
    rw [List.pairwise_iff_getElem]
    intro i j hi hj hlt
    simpa using hlt
  fresh e he := by
    simp only [arrivals, List.filterMap_nil, List.append_nil, loaded, List.mem_mapIdx] at he
    obtain ⟨i, hi, rfl⟩ := he
    exact hi
  queue := by simp [arrivals, departures]
  first e he := by
    simp only [loaded] at he
    split at he <;> simp at he
  sending e he := by
    simp only [loaded] at he
    split at he <;> simp at he
  submitted before e commit after hsplit := by simp at hsplit
  departed before e why after hsplit := by simp at hsplit
  outcomes := ⟨List.nodup_nil, by simp [loaded]⟩
  settled := ⟨List.nodup_nil, by simp [settlements]⟩

theorem proceed_queue (at_ : ℚ) (s : State) : (proceed o at_ s).1.queue = s.queue := by
  unfold proceed
  split
  · split
    · rfl
    · exact (nextSendable_quiet at_ s).queue
  · split <;> rfl
  · dsimp only
    split
    · rfl
    · exact (kick_quiet _).queue
  · rfl

theorem mem_enqueue {s : State} {e : Queued} (fire : Fire) (h : e ∈ s.queue) :
    e ∈ (enqueue fire s).1.queue := by
  unfold enqueue
  dsimp only
  split
  · exact List.mem_append_left _ h
  · rw [(kick_quiet _).queue]
    exact List.mem_append_left _ h

/-- An entry leaves by the answer to its own append. -/
theorem leaves {s : State} {input : Input} {e : Queued} (hmem : e ∈ s.queue)
    (hleft : e ∉ (step o s input).1.queue) :
    ∃ entry, s.phase = .sending entry ∧ entry.ref = e.ref ∧ (input = .answer .accepted ∨
      ∃ err, input = .answer (.failed err) ∧ (err.isDuplicate = true ∨ err.isRefusal = true)) := by
  have hsame {s' : State} (h : s'.queue = s.queue) : e ∈ s'.queue := h ▸ hmem
  cases input with
  | enqueue fire => exact absurd (mem_enqueue fire hmem) hleft
  | kick => exact absurd (hsame (kick_quiet s).queue) hleft
  | proceed at_ => exact absurd (hsame (proceed_queue at_ s)) hleft
  | wake => exact absurd (hsame (wake_quiet s).queue) hleft
  | close =>
    exact absurd (hsame (wake_quiet { s with closed := true, outcomes := [] }).queue) hleft
  | answer a =>
    rw [step] at hleft
    split at hleft
    · rename_i entry hphase
      have hdepart (why : Departure) (h : e ∉ (depart entry why s).1.queue) : entry.ref = e.ref := by
        by_contra hne
        exact h (List.mem_filter.2 ⟨hmem, by simpa using fun heq : e.ref = entry.ref => hne heq.symm⟩)
      cases a with
      | accepted => exact ⟨entry, hphase, hdepart _ hleft, .inl rfl⟩
      | failed err =>
        rw [answered] at hleft
        split at hleft
        · rename_i hduplicate
          exact ⟨entry, hphase, hdepart _ hleft, .inr ⟨err, rfl, .inl hduplicate⟩⟩
        · split at hleft
          · rename_i hrefusal
            exact ⟨entry, hphase, hdepart (.refused err.message) hleft,
              .inr ⟨err, rfl, .inr hrefusal⟩⟩
          · exact absurd hmem hleft
    · exact absurd hmem hleft

namespace Kept

variable {backlog : List Queued} {s : State} {trace : List Event}

/-- Entries are told apart by their `ref`. -/
theorem eq_of_ref (h : Kept backlog s trace) {a b : Queued} (ha : a ∈ arrivals backlog trace)
    (hb : b ∈ arrivals backlog trace) (href : a.ref = b.ref) : a = b := by
  have hnodup : ((arrivals backlog trace).map (·.ref)).Nodup := by
    rw [List.Nodup, List.pairwise_map]
    exact h.ascending.imp Nat.ne_of_lt
  exact List.inj_on_of_nodup_map hnodup ha hb href

theorem mem_arrivals_of_submitted (h : Kept backlog s trace) {e : Queued} {commit : ClientCommit}
    (hmem : .submitted e commit ∈ trace) : e ∈ arrivals backlog trace := by
  obtain ⟨before, after, rfl⟩ := List.append_of_mem hmem
  rw [arrivals_append]
  exact List.mem_append_left _ (h.submitted before e commit after rfl).1

/-- What was submitted of a stream before an entry has left by then, and is not submitted again. -/
theorem in_order (h : Kept backlog s trace) {before after : List Event} {e other : Queued}
    {commit : ClientCommit} (hsplit : trace = before ++ .submitted e commit :: after)
    (hother : other ∈ arrivals backlog trace)
    (hstream : other.append.sidecarId = e.append.sidecarId) (hlt : other.ref < e.ref) :
    other.ref ∈ departures before ∧ (∃ commit, .submitted other commit ∈ before) ∧
      ∀ commit, .submitted other commit ∉ after := by
  obtain ⟨he, -, hearlier⟩ := h.submitted before e commit after hsplit
  have hbefore : other ∈ arrivals backlog before := by
    rw [hsplit, arrivals_append] at hother
    refine (List.mem_append.1 hother).resolve_right fun hlater => ?_
    have hascending := h.ascending
    rw [hsplit, arrivals_append, List.pairwise_append] at hascending
    exact Nat.lt_asymm hlt (hascending.2.2 e he other hlater)
  have hdeparted := hearlier other hbefore hstream hlt
  refine ⟨hdeparted, ?_, fun commit' hlater => ?_⟩
  · obtain ⟨event, hevent, hdeparture⟩ := List.mem_filterMap.1 hdeparted
    cases event with
    | departed gone why =>
      obtain ⟨first, second, hsecond⟩ := List.append_of_mem hevent
      obtain ⟨commit', hcommit'⟩ := h.departed first gone why
        (second ++ .submitted e commit :: after) (by simp [hsplit, hsecond])
      have hmem : .submitted gone commit' ∈ before := by
        rw [hsecond]
        exact List.mem_append_left _ hcommit'
      have hgone : gone = other := by
        have hin : .submitted gone commit' ∈ trace := hsplit ▸ List.mem_append_left _ hmem
        exact h.eq_of_ref (h.mem_arrivals_of_submitted hin) hother (Option.some.inj hdeparture)
      exact ⟨commit', hgone ▸ hmem⟩
    | _ => cases hdeparture
  · obtain ⟨first, second, hsecond⟩ := List.append_of_mem hlater
    have hnot := (h.submitted (before ++ .submitted e commit :: first) other commit' second
      (by simp [hsplit, hsecond])).2.1
    rw [departures_append] at hnot
    exact hnot (List.mem_append_left _ hdeparted)

end Kept

/-- Over any run: an entry is submitted when those of its stream that came before it were
submitted and have left, and none of them is submitted after it; no entry is settled twice;
and an entry leaves by the answer to its own append alone, which accepts it, reports it a
duplicate or refuses it for good. -/
theorem discharges_in_order (o : Options) (localSeq : Int) (backlog : List QueuedEventAppend)
    (inputs : List Input) :
    (arrivals (loaded localSeq backlog).queue (run o (loaded localSeq backlog) inputs).2).Pairwise
        (fun a b => a.ref < b.ref) ∧
      (∀ before e commit after,
        (run o (loaded localSeq backlog) inputs).2 = before ++ .submitted e commit :: after →
        ∀ other ∈ arrivals (loaded localSeq backlog).queue (run o (loaded localSeq backlog) inputs).2,
          other.append.sidecarId = e.append.sidecarId → other.ref < e.ref →
          other.ref ∈ departures before ∧ (∃ commit, .submitted other commit ∈ before) ∧
            ∀ commit, .submitted other commit ∉ after) ∧
      (settlements (run o (loaded localSeq backlog) inputs).2).Nodup ∧
      ∀ input, ∀ e ∈ (run o (loaded localSeq backlog) inputs).1.queue,
        e ∉ (step o (run o (loaded localSeq backlog) inputs).1 input).1.queue →
        (run o (loaded localSeq backlog) inputs).1.phase = .sending e ∧
          (input = .answer .accepted ∨ ∃ err, input = .answer (.failed err) ∧
            (err.isDuplicate = true ∨ err.isRefusal = true)) := by
  have h : Kept (loaded localSeq backlog).queue (run o (loaded localSeq backlog) inputs).1
      ([] ++ (run o (loaded localSeq backlog) inputs).2) := (kept_loaded localSeq backlog).run inputs
  rw [List.nil_append] at h
  refine ⟨h.ascending, fun before e commit after hsplit other hother hstream hlt =>
    h.in_order hsplit hother hstream hlt, h.settled.1, fun input e hmem hleft => ?_⟩
  obtain ⟨entry, hphase, href, hanswer⟩ := leaves hmem hleft
  have hin (x : Queued) (hx : x ∈ (run o (loaded localSeq backlog) inputs).1.queue) :
      x ∈ arrivals (loaded localSeq backlog).queue (run o (loaded localSeq backlog) inputs).2 :=
    List.mem_of_mem_filter (h.queue ▸ hx)
  have heq : entry = e := h.eq_of_ref (hin entry (h.first entry (.inr hphase)).mem) (hin e hmem) href
  exact ⟨heq ▸ hphase, hanswer⟩

end

end EventAppendQueue
