import CommonFabric.DependencyGraph

/-!
# Outstanding pull work

The settle loop collects the actions it will run, and an oracle says whether there are any.
Both read the statuses of the nodes, an index of those that are invalid, the actions asked for
explicitly, and the gates that hold an action back until a time. All of it is read at one
instant.
-/

namespace Scheduler

inductive NodeStatus where
  | neverRan
  | clean
  | invalid
  | unavailable
  deriving DecidableEq

structure SchedulerGateState (T : Type) where
  debounceMs : Option T
  debounceReadyAt : Option T
  throttleReadyAt : Option T
  backoffUntil : Option T
  echoBackoffUntil : Option T
  convergenceHoldPasses : Nat

def CONVERGENCE_IDLE_HOLD_MAX_BACKOFF_PASSES : Nat := 3

def NodeStatus.isInvalidOrNeverRan (status : NodeStatus) : Bool :=
  status = .invalid || status = .neverRan

/-- The scheduler at one instant. The index holds the registered actions whose status is
`invalid` or `neverRan`, and an active action is on the list of its kind. -/
structure PullSchedulingState (Action T : Type) [DecidableEq Action] where
  graph : DependencyGraphState Action
  status : Action → NodeStatus
  gate : Action → SchedulerGateState T
  pending : JsSet Action
  invalidNodes : JsSet Action
  now : T
  indexed : ∀ a, a ∈ invalidNodes ↔
    a ∈ graph.nodes.all ∧ (status a).isInvalidOrNeverRan = true
  effects : ∀ a, a ∈ graph.nodes.activeEffects ↔
    a ∈ graph.nodes.all ∧ ∃ node, graph.nodes.records a = some node ∧ node.kind = .effect

namespace PullSchedulingState

variable {Action T : Type} [DecidableEq Action]

section Registry

variable (s : PullSchedulingState Action T)

/-- `#syncInvalidIndex`, once the status of an action or its registration has changed. -/
def syncInvalidIndex (all : JsSet Action) (status : Action → NodeStatus)
    (invalidNodes : JsSet Action) (action : Action) : JsSet Action :=
  if action ∈ all ∧ (status action).isInvalidOrNeverRan = true then invalidNodes.add action
  else invalidNodes.delete action

theorem mem_syncInvalidIndex {all all' : JsSet Action} {status status' : Action → NodeStatus}
    {invalidNodes : JsSet Action} {action : Action}
    (h : ∀ a, a ∈ invalidNodes ↔ a ∈ all ∧ (status a).isInvalidOrNeverRan = true)
    (hall : ∀ a, a ≠ action → (a ∈ all' ↔ a ∈ all)) (hstatus : ∀ a, a ≠ action → status' a = status a)
    (a : Action) : a ∈ syncInvalidIndex all' status' invalidNodes action ↔
      a ∈ all' ∧ (status' a).isInvalidOrNeverRan = true := by
  unfold syncInvalidIndex
  by_cases ha : a = action
  · subst ha
    split <;> simp_all
  · split <;> simp [ha, h, hall a ha, hstatus a ha]

/-- A scheduler that nothing is registered with. -/
def init (identity : ScopeKeyIdentity) (now : T) : PullSchedulingState Action T where
  graph := .init identity
  status _ := .neverRan
  gate _ := ⟨none, none, none, none, none, 0⟩
  pending := .empty
  invalidNodes := .empty
  now := now
  indexed a := by simp [DependencyGraphState.init, NodeRegistry.empty]
  effects a := by simp [DependencyGraphState.init, NodeRegistry.empty]

/-- An explicit request to run. -/
def request (action : Action) : PullSchedulingState Action T :=
  { s with pending := s.pending.add action }

/-- `#activate`, of the record the action now has. -/
def activate (action : Action) (record : SchedulerNode) (status : NodeStatus) :
    PullSchedulingState Action T :=
  { s with
    graph := { s.graph with nodes := s.graph.nodes.activate action record }
    status := Function.update s.status action status
    invalidNodes := syncInvalidIndex (s.graph.nodes.activate action record).all
      (Function.update s.status action status) s.invalidNodes action
    indexed := mem_syncInvalidIndex s.indexed
      (fun a ha => by simp [NodeRegistry.activate, ha]) fun _ ha => Function.update_of_ne ha ..
    effects := fun a => by
      by_cases ha : a = action
      · subst ha
        cases hk : record.kind <;> simp [NodeRegistry.activate, hk]
      · cases hk : record.kind <;> simp [NodeRegistry.activate, hk, ha, s.effects a] }

end Registry

section Predicates

variable [LinearOrder T] [Zero T] (s : PullSchedulingState Action T) (action : Action)

def hasRecord : Bool := (s.graph.nodes.records action).isSome

def isEffect : Bool := s.graph.nodes.isEffect action

def isMaterializer : Bool := s.graph.materializers.has action

def isLiveAction : Bool := s.graph.isLive action

def isInvalidOrNeverRan : Bool := (s.status action).isInvalidOrNeverRan

def isDemandedPullComputation : Bool :=
  (s.graph.nodes.records action).any fun node => node.kind = .computation && s.graph.isLive action

def shouldRunFirstPullComputationInDemandContext : Bool :=
  (s.graph.nodes.records action).any fun node =>
    node.kind = .computation && s.status action = .neverRan && node.provisionalDemand

/-- Whether a deadline lies ahead. One that is not set counts as 0. -/
def ahead (deadline : Option T) : Bool := decide (s.now < deadline.getD 0)

def isThrottled : Bool := s.hasRecord action && s.ahead (s.gate action).throttleReadyAt

def eligibleAt : T :=
  max (max (max ((s.gate action).debounceReadyAt.getD 0) ((s.gate action).throttleReadyAt.getD 0))
    ((s.gate action).backoffUntil.getD 0)) ((s.gate action).echoBackoffUntil.getD 0)

def getNextEligibleRunTime : Option T :=
  if s.hasRecord action && decide (s.now < s.eligibleAt action) then some (s.eligibleAt action)
  else none

def isTimeGated : Bool := (s.getNextEligibleRunTime action).any fun at_ => decide (s.now < at_)

def hasActiveDebounceTimer : Bool :=
  (s.gate action).debounceReadyAt.any fun readyAt => decide (s.now < readyAt)

def shouldDebouncePullComputation : Bool :=
  s.graph.nodes.isComputation action && !s.isEffect action &&
    (s.status action ≠ .neverRan ||
      (s.graph.nodes.records action).any fun node =>
        node.provisionalDemand && s.status action = .neverRan) &&
    (s.gate action).debounceMs.any fun ms => decide (0 < ms)

def isDebouncedComputationWaiting : Bool :=
  s.shouldDebouncePullComputation action && s.isInvalidOrNeverRan action &&
    s.hasActiveDebounceTimer action

def isConvergenceHoldActive : Bool :=
  (if s.hasRecord action then (s.gate action).convergenceHoldPasses else 0) <
    CONVERGENCE_IDLE_HOLD_MAX_BACKOFF_PASSES

def isConvergenceBackoffDeferred : Bool :=
  s.hasRecord action && (s.gate action).backoffUntil.any fun until_ => decide (s.now < until_)

def isPendingPullActionRunnable : Bool :=
  s.isEffect action || s.isDemandedPullComputation action ||
    s.shouldRunFirstPullComputationInDemandContext action

def isDirtyPullActionRunnable : Bool :=
  (s.isEffect action || s.isDemandedPullComputation action) && !s.isThrottled action &&
    !s.isDebouncedComputationWaiting action

def isRunnableSchedulingSeed : Bool :=
  s.isInvalidOrNeverRan action && (s.isLiveAction action || s.pending.has action) &&
    !s.isThrottled action && !s.isTimeGated action && !s.hasActiveDebounceTimer action &&
    !s.isDebouncedComputationWaiting action

def isIdleMaterializerRunnable : Bool :=
  s.isMaterializer action && s.isRunnableSchedulingSeed action && !s.isEffect action &&
    !s.isDebouncedComputationWaiting action

end Predicates

section Registered

variable (s : PullSchedulingState Action T)

theorem registered_of_invalid {a : Action} (h : a ∈ s.invalidNodes) :
    ∃ node, s.graph.nodes.records a = some node ∧ s.graph.isRegisteredNode a = true ∧
      (s.isEffect a = true ∨ node.kind = .computation) := by
  have hall := ((s.indexed a).1 h).1
  obtain ⟨node, hnode⟩ := Option.isSome_iff_exists.1 (s.graph.nodes.known a hall)
  refine ⟨node, hnode, ?_, ?_⟩
  · have hkinds := (s.graph.nodes.kinds a).1 hall
    simpa [DependencyGraphState.isRegisteredNode, NodeRegistry.isEffect,
      NodeRegistry.isComputation] using hkinds
  · cases hk : node.kind with
    | computation => exact .inr rfl
    | effect =>
      apply Or.inl
      have heffect := (s.effects a).2 ⟨hall, node, hnode, hk⟩
      simpa [isEffect, NodeRegistry.isEffect] using heffect

/-- Effects, materializers and nodes of provisional demand hold demand of their own. -/
theorem live_of_root {a : Action} {node : SchedulerNode}
    (hnode : s.graph.nodes.records a = some node) (hregistered : s.graph.isRegisteredNode a = true)
    (hroot : s.isEffect a = true ∨ s.isMaterializer a = true ∨ node.provisionalDemand = true) :
    s.isLiveAction a = true := by
  simp only [isLiveAction, DependencyGraphState.isLive, hnode, hregistered, Bool.true_and,
    DependencyGraphState.isDemandRoot, Bool.or_eq_true]
  simp only [isEffect, isMaterializer] at hroot
  tauto

theorem demanded_iff {a : Action} {node : SchedulerNode}
    (hnode : s.graph.nodes.records a = some node) :
    s.isDemandedPullComputation a = true ↔
      node.kind = .computation ∧ s.isLiveAction a = true := by
  simp [isDemandedPullComputation, isLiveAction, hnode]

theorem pending_iff (a : Action) :
    s.isPendingPullActionRunnable a = true ↔ s.isEffect a = true ∨
      s.isDemandedPullComputation a = true ∨
        s.shouldRunFirstPullComputationInDemandContext a = true := by
  simp only [isPendingPullActionRunnable, Bool.or_eq_true, or_assoc]

end Registered

section Settle

variable [LinearOrder T] [Zero T] (s : PullSchedulingState Action T)

def collectPrimaryPullIterationSeeds (workSet : JsSet Action) : JsSet Action :=
  let fromPending := s.pending.items.foldl (fun workSet action =>
    if s.isMaterializer action then workSet
    else if s.hasRecord action && s.isRunnableSchedulingSeed action &&
        s.isPendingPullActionRunnable action then workSet.add action
    else workSet) workSet
  s.invalidNodes.items.foldl (fun workSet action =>
    if s.isMaterializer action then workSet
    else if s.hasRecord action && s.isRunnableSchedulingSeed action then workSet.add action
    else workSet) fromPending

def collectIdleMaterializerSeeds (workSet : JsSet Action) : JsSet Action :=
  (s.pending.items ++ s.invalidNodes.items).foldl (fun workSet action =>
    if s.hasRecord action && s.isIdleMaterializerRunnable action then workSet.add action
    else workSet) workSet

/-- Materializers wait for a pass that has nothing else to run. -/
def collectPullIterationSeeds (workSet : JsSet Action) : JsSet Action :=
  let primary := s.collectPrimaryPullIterationSeeds workSet
  if workSet.size < primary.size || 0 < workSet.size then primary
  else s.collectIdleMaterializerSeeds primary

end Settle

structure PullWorkAssessment (T : Type) where
  runnableNow : Bool
  nextWakeAt : Option T
  deferredIdleBlocking : Bool

section Oracle

variable [LinearOrder T] [Zero T] (s : PullSchedulingState Action T)

/-- A deferred run that an idle waiter must observe. Once an episode that does not settle has
spent its passes, none is. -/
def futureRunWaitsForIdle (action : Action) : Bool :=
  s.isConvergenceHoldActive action &&
    (s.isEffect action || s.isMaterializer action ||
      s.shouldRunFirstPullComputationInDemandContext action ||
      (s.isDemandedPullComputation action && s.isConvergenceBackoffDeferred action))

def noteFutureEligibility (found : PullWorkAssessment T) (action : Action) :
    PullWorkAssessment T :=
  match s.getNextEligibleRunTime action with
  | none => found
  | some nextEligibleAt =>
    if s.now < nextEligibleAt then
      { found with
        nextWakeAt := some (found.nextWakeAt.elim nextEligibleAt (min · nextEligibleAt))
        deferredIdleBlocking := found.deferredIdleBlocking || s.futureRunWaitsForIdle action }
    else found

def assessPending (found : PullWorkAssessment T) (action : Action) : PullWorkAssessment T :=
  let idleRelevant := s.isEffect action || s.isMaterializer action ||
    s.isDemandedPullComputation action || s.shouldRunFirstPullComputationInDemandContext action
  if !s.hasRecord action || !idleRelevant then found
  else if s.isRunnableSchedulingSeed action &&
      (s.isPendingPullActionRunnable action || s.isIdleMaterializerRunnable action) then
    { found with runnableNow := true }
  else s.noteFutureEligibility found action

def assessInvalid (found : PullWorkAssessment T) (action : Action) : PullWorkAssessment T :=
  let idleRelevant := s.isEffect action || s.isDemandedPullComputation action ||
    s.isMaterializer action
  if !s.hasRecord action || !s.isInvalidOrNeverRan action then found
  else if s.isRunnableSchedulingSeed action &&
      (s.isDirtyPullActionRunnable action || s.isIdleMaterializerRunnable action) then
    { found with runnableNow := true }
  else if idleRelevant then s.noteFutureEligibility found action
  else found

def assessPullWork : PullWorkAssessment T :=
  s.invalidNodes.items.foldl s.assessInvalid
    (s.pending.items.foldl s.assessPending ⟨false, none, false⟩)

end Oracle

end PullSchedulingState

end Scheduler

namespace Scheduler

namespace PullSchedulingState

variable {Action T : Type}

theorem ne_nil_iff_exists_mem (workSet : JsSet Action) :
    workSet.items ≠ [] ↔ ∃ a, a ∈ workSet := by
  constructor
  · exact List.exists_mem_of_ne_nil _
  · rintro ⟨a, ha⟩
    exact List.ne_nil_of_mem ha

theorem runnableNow_foldl {p : Action → Bool}
    {f : PullWorkAssessment T → Action → PullWorkAssessment T}
    (hf : ∀ found action, (f found action).runnableNow = (found.runnableNow || p action))
    (actions : List Action) (found : PullWorkAssessment T) :
    (actions.foldl f found).runnableNow = (found.runnableNow || actions.any p) := by
  induction actions generalizing found with
  | nil => simp
  | cons action actions ih => rw [List.foldl_cons, ih, hf, List.any_cons, Bool.or_assoc]

variable [DecidableEq Action] [LinearOrder T] [Zero T]

/-- A loop that adds the actions of a list that pass a test. -/
theorem mem_foldl_add {p : Action → Bool} {f : JsSet Action → Action → JsSet Action}
    (hf : ∀ workSet action, f workSet action = if p action then workSet.add action else workSet)
    (actions : List Action) (workSet : JsSet Action) (a : Action) :
    a ∈ actions.foldl f workSet ↔ a ∈ workSet ∨ a ∈ actions ∧ p a = true := by
  induction actions generalizing workSet with
  | nil => simp
  | cons action actions ih =>
    rw [List.foldl_cons, ih, hf]
    by_cases hp : p action = true
    · simp only [hp, if_true, JsSet.mem_add, List.mem_cons]
      constructor
      · rintro ((rfl | hw) | ⟨hin, hpa⟩)
        · exact .inr ⟨.inl rfl, hp⟩
        · exact .inl hw
        · exact .inr ⟨.inr hin, hpa⟩
      · rintro (hw | ⟨rfl | hin, hpa⟩)
        · exact .inl (.inr hw)
        · exact .inl (.inl rfl)
        · exact .inr ⟨hin, hpa⟩
    · simp only [hp]
      constructor
      · rintro (hw | ⟨hin, hpa⟩)
        · exact .inl hw
        · exact .inr ⟨List.mem_cons_of_mem _ hin, hpa⟩
      · rintro (hw | ⟨hin, hpa⟩)
        · exact .inl hw
        · cases List.mem_cons.1 hin with
          | inl heq => exact absurd (heq ▸ hpa) hp
          | inr hin => exact .inr ⟨hin, hpa⟩

variable (s : PullSchedulingState Action T)

/-- An action that the first collection adds. -/
def Primary (a : Action) : Prop :=
  s.isMaterializer a = false ∧ s.hasRecord a = true ∧ s.isRunnableSchedulingSeed a = true ∧
    (a ∈ s.pending ∧ s.isPendingPullActionRunnable a = true ∨ a ∈ s.invalidNodes)

theorem mem_collectPrimary (a : Action) :
    a ∈ s.collectPrimaryPullIterationSeeds .empty ↔ s.Primary a := by
  unfold collectPrimaryPullIterationSeeds Primary
  rw [mem_foldl_add (p := fun a => !s.isMaterializer a && (s.hasRecord a &&
      s.isRunnableSchedulingSeed a)),
    mem_foldl_add (p := fun a => !s.isMaterializer a && (s.hasRecord a &&
      s.isRunnableSchedulingSeed a && s.isPendingPullActionRunnable a))]
  · simp only [JsSet.not_mem_empty, false_or, JsSet.mem_items]
    cases s.isMaterializer a <;> cases s.hasRecord a <;>
      cases s.isRunnableSchedulingSeed a <;> simp
  · intro workSet action
    cases s.isMaterializer action <;> simp
  · intro workSet action
    cases s.isMaterializer action <;> simp

theorem mem_collectIdle (workSet : JsSet Action) (a : Action) :
    a ∈ s.collectIdleMaterializerSeeds workSet ↔ a ∈ workSet ∨
      (a ∈ s.pending ∨ a ∈ s.invalidNodes) ∧ s.hasRecord a = true ∧
        s.isIdleMaterializerRunnable a = true := by
  unfold collectIdleMaterializerSeeds
  rw [mem_foldl_add (p := fun a => s.hasRecord a && s.isIdleMaterializerRunnable a)
    (fun _ _ => rfl)]
  simp [JsSet.mem_items]

/-- The loop collects something if there is a primary seed or an idle materializer to run. -/
theorem collects_iff :
    (s.collectPullIterationSeeds .empty).items ≠ [] ↔
      (∃ a, s.Primary a) ∨ ∃ a, (a ∈ s.pending ∨ a ∈ s.invalidNodes) ∧ s.hasRecord a = true ∧
        s.isIdleMaterializerRunnable a = true := by
  unfold collectPullIterationSeeds
  have hempty : (JsSet.empty : JsSet Action).size = 0 := rfl
  simp only [hempty, Nat.lt_irrefl, decide_false, Bool.or_false, decide_eq_true_eq]
  by_cases hprimary : ∃ a, s.Primary a
  · have hne : (s.collectPrimaryPullIterationSeeds .empty).items ≠ [] := by
      rw [ne_nil_iff_exists_mem]
      obtain ⟨a, ha⟩ := hprimary
      exact ⟨a, (s.mem_collectPrimary a).2 ha⟩
    have hsize : 0 < (s.collectPrimaryPullIterationSeeds .empty).size := List.length_pos_iff.2 hne
    rw [if_pos hsize]
    simp [hne, hprimary]
  · have hnil : (s.collectPrimaryPullIterationSeeds .empty).items = [] := by
      by_contra hne
      obtain ⟨a, ha⟩ := (ne_nil_iff_exists_mem _).1 hne
      exact hprimary ⟨a, (s.mem_collectPrimary a).1 ha⟩
    have hsize : ¬ 0 < (s.collectPrimaryPullIterationSeeds .empty).size := by
      simp [JsSet.size, hnil]
    rw [if_neg hsize, ne_nil_iff_exists_mem]
    simp only [hprimary, false_or]
    apply exists_congr
    intro a
    rw [mem_collectIdle]
    have hnot : a ∉ s.collectPrimaryPullIterationSeeds .empty := by
      intro ha
      exact hprimary ⟨a, (s.mem_collectPrimary a).1 ha⟩
    simp [hnot]

theorem runnableNow_noteFutureEligibility (found : PullWorkAssessment T) (action : Action) :
    (s.noteFutureEligibility found action).runnableNow = found.runnableNow := by
  unfold noteFutureEligibility
  split
  · rfl
  · split <;> rfl

theorem runnableNow_assessPending (found : PullWorkAssessment T) (action : Action) :
    (s.assessPending found action).runnableNow = (found.runnableNow ||
      (s.hasRecord action && s.isRunnableSchedulingSeed action &&
        (s.isPendingPullActionRunnable action || s.isIdleMaterializerRunnable action))) := by
  have hrelevant : (s.isPendingPullActionRunnable action ||
      s.isIdleMaterializerRunnable action) = true →
      (s.isEffect action || s.isMaterializer action || s.isDemandedPullComputation action ||
        s.shouldRunFirstPullComputationInDemandContext action) = true := by
    simp only [isPendingPullActionRunnable, isIdleMaterializerRunnable, Bool.or_eq_true,
      Bool.and_eq_true]
    tauto
  unfold assessPending
  dsimp only
  generalize (s.isPendingPullActionRunnable action || s.isIdleMaterializerRunnable action) = runs
    at hrelevant ⊢
  generalize (s.isEffect action || s.isMaterializer action || s.isDemandedPullComputation action ||
    s.shouldRunFirstPullComputationInDemandContext action) = relevant at hrelevant ⊢
  cases s.hasRecord action <;> cases relevant <;> cases s.isRunnableSchedulingSeed action <;>
    cases runs <;> simp_all [runnableNow_noteFutureEligibility]

theorem runnableNow_assessInvalid (found : PullWorkAssessment T) (action : Action) :
    (s.assessInvalid found action).runnableNow = (found.runnableNow ||
      (s.hasRecord action && s.isRunnableSchedulingSeed action &&
        (s.isDirtyPullActionRunnable action || s.isIdleMaterializerRunnable action))) := by
  have hinvalid : s.isRunnableSchedulingSeed action = true → s.isInvalidOrNeverRan action = true := by
    simp only [isRunnableSchedulingSeed, Bool.and_eq_true]
    tauto
  unfold assessInvalid
  dsimp only
  generalize (s.isDirtyPullActionRunnable action || s.isIdleMaterializerRunnable action) = runs
  generalize (s.isEffect action || s.isDemandedPullComputation action ||
    s.isMaterializer action) = relevant
  generalize s.isInvalidOrNeverRan action = invalid at hinvalid ⊢
  generalize s.isRunnableSchedulingSeed action = seed at hinvalid ⊢
  cases s.hasRecord action <;> cases invalid <;> cases seed <;> cases runs <;> cases relevant <;>
    simp_all [runnableNow_noteFutureEligibility]

theorem reports_iff :
    s.assessPullWork.runnableNow = true ↔
      (∃ a ∈ s.pending, s.hasRecord a = true ∧ s.isRunnableSchedulingSeed a = true ∧
        (s.isPendingPullActionRunnable a = true ∨ s.isIdleMaterializerRunnable a = true)) ∨
      ∃ a ∈ s.invalidNodes, s.hasRecord a = true ∧ s.isRunnableSchedulingSeed a = true ∧
        (s.isDirtyPullActionRunnable a = true ∨ s.isIdleMaterializerRunnable a = true) := by
  unfold assessPullWork
  rw [runnableNow_foldl s.runnableNow_assessInvalid, runnableNow_foldl s.runnableNow_assessPending]
  simp only [Bool.false_or, Bool.or_eq_true, List.any_eq_true, Bool.and_eq_true, and_assoc]
  rfl

/-- A seed of either scan: it has a record and nothing holds it back. -/
def Seed (a : Action) : Prop :=
  (a ∈ s.pending ∨ a ∈ s.invalidNodes) ∧ s.hasRecord a = true ∧
    s.isRunnableSchedulingSeed a = true

/-- A seed that both count as work: a materializer that is no effect, or another node that is
an effect, demanded, or pending for its first run. -/
def Shared (a : Action) : Prop :=
  s.Seed a ∧ if s.isMaterializer a then s.isEffect a = false
    else s.isEffect a = true ∨ s.isDemandedPullComputation a = true ∨
      a ∈ s.pending ∧ s.shouldRunFirstPullComputationInDemandContext a = true

/-- A registered node that runs on request alone: it is a seed, but nothing live reads it. -/
def Undemanded (a : Action) : Prop :=
  s.Seed a ∧ a ∈ s.invalidNodes ∧ s.isLiveAction a = false

/-- A seed that is an effect and a materializer at once. -/
def MaterializerEffect (a : Action) : Prop :=
  s.Seed a ∧ s.isEffect a = true ∧ s.isMaterializer a = true

theorem idle_iff (a : Action) :
    s.isIdleMaterializerRunnable a = true ↔ s.isMaterializer a = true ∧
      s.isRunnableSchedulingSeed a = true ∧ s.isEffect a = false := by
  simp only [isIdleMaterializerRunnable, isRunnableSchedulingSeed, Bool.and_eq_true,
    Bool.not_eq_true']
  tauto

/-- The gates that the dirty test asks about are open for a seed. -/
theorem dirty_iff {a : Action} (h : s.isRunnableSchedulingSeed a = true) :
    s.isDirtyPullActionRunnable a = true ↔
      s.isEffect a = true ∨ s.isDemandedPullComputation a = true := by
  simp only [isRunnableSchedulingSeed, isDirtyPullActionRunnable, Bool.and_eq_true,
    Bool.or_eq_true, Bool.not_eq_true'] at h ⊢
  tauto

/-- The first scan of the loop collects what both count as work, and the nodes that nothing
live reads. -/
theorem primary_iff (a : Action) :
    s.Primary a ↔ (s.Shared a ∧ s.isMaterializer a = false) ∨ s.Undemanded a := by
  unfold Primary Shared Undemanded Seed
  constructor
  · rintro ⟨hmat, hrecord, hseed, ⟨hpending, hruns⟩ | hinvalid⟩
    · apply Or.inl
      rw [pending_iff] at hruns
      simp only [hmat, Bool.false_eq_true, if_false]
      tauto
    · obtain ⟨node, hnode, -, hkind⟩ := s.registered_of_invalid hinvalid
      cases hlive : s.isLiveAction a with
      | false => exact .inr ⟨⟨.inr hinvalid, hrecord, hseed⟩, hinvalid, rfl⟩
      | true =>
        apply Or.inl
        simp only [hmat, Bool.false_eq_true, if_false]
        have hdemanded := s.demanded_iff hnode
        tauto
  · rintro (⟨⟨⟨hin, hrecord, hseed⟩, hshared⟩, hmat⟩ | ⟨⟨-, hrecord, hseed⟩, hinvalid, hlive⟩)
    · simp only [hmat, Bool.false_eq_true, if_false] at hshared
      have hruns := s.pending_iff a
      tauto
    · refine ⟨?_, hrecord, hseed, .inr hinvalid⟩
      obtain ⟨node, hnode, hregistered, -⟩ := s.registered_of_invalid hinvalid
      cases hmat : s.isMaterializer a with
      | false => rfl
      | true =>
        have hroot := s.live_of_root hnode hregistered (.inr (.inl hmat))
        rw [hlive] at hroot
        cases hroot

/-- The loop collects what both count as work, and the nodes that nothing live reads. -/
theorem collects_iff_seeds :
    (s.collectPullIterationSeeds .empty).items ≠ [] ↔ ∃ a, s.Shared a ∨ s.Undemanded a := by
  rw [collects_iff]
  constructor
  · rintro (⟨a, ha⟩ | ⟨a, hin, hrecord, hidle⟩)
    · exists a
      have hprimary := (s.primary_iff a).1 ha
      tauto
    · exists a
      obtain ⟨hmat, hseed, heffect⟩ := (s.idle_iff a).1 hidle
      apply Or.inl
      constructor
      · exact ⟨hin, hrecord, hseed⟩
      · simp [hmat, heffect]
  · rintro ⟨a, hshared | hundemanded⟩
    · cases hmat : s.isMaterializer a with
      | false => exact .inl ⟨a, (s.primary_iff a).2 (.inl ⟨hshared, hmat⟩)⟩
      | true =>
        obtain ⟨⟨hin, hrecord, hseed⟩, heffect⟩ := hshared
        rw [if_pos hmat] at heffect
        exact .inr ⟨a, hin, hrecord, (s.idle_iff a).2 ⟨hmat, hseed, heffect⟩⟩
    · exact .inl ⟨a, (s.primary_iff a).2 (.inr hundemanded)⟩

/-- The oracle reports what both count as work, and the effects that are materializers. -/
theorem reports_iff_seeds :
    s.assessPullWork.runnableNow = true ↔ ∃ a, s.Shared a ∨ s.MaterializerEffect a := by
  rw [reports_iff]
  constructor
  · rintro (⟨a, hin, hrecord, hseed, hruns⟩ | ⟨a, hin, hrecord, hseed, hruns⟩)
    · exists a
      rw [pending_iff, idle_iff] at hruns
      unfold Shared MaterializerEffect Seed
      cases hmat : s.isMaterializer a <;> cases heffect : s.isEffect a <;> simp_all
    · exists a
      rw [s.dirty_iff hseed, idle_iff] at hruns
      unfold Shared MaterializerEffect Seed
      cases hmat : s.isMaterializer a <;> cases heffect : s.isEffect a <;> simp_all
  · rintro ⟨a, ⟨⟨hin, hrecord, hseed⟩, hshared⟩ | ⟨⟨hin, hrecord, hseed⟩, heffect, -⟩⟩
    · have hpending := s.pending_iff a
      have hdirty := s.dirty_iff hseed
      have hidle := s.idle_iff a
      by_cases hin' : a ∈ s.pending
      · refine .inl ⟨a, hin', hrecord, hseed, ?_⟩
        cases hmat : s.isMaterializer a <;> simp_all
      · refine .inr ⟨a, hin.resolve_left hin', hrecord, hseed, ?_⟩
        cases hmat : s.isMaterializer a <;> simp_all
    · have hpending := s.pending_iff a
      have hdirty := s.dirty_iff hseed
      cases hin with
      | inl hin => exact .inl ⟨a, hin, hrecord, hseed, .inl (hpending.2 (.inl heffect))⟩
      | inr hin => exact .inr ⟨a, hin, hrecord, hseed, .inl (hdirty.2 (.inl heffect))⟩

/-- The oracle and the loop agree in a state exactly when some seed counts for both, or each
has a seed of its own, or neither has. -/
theorem oracle_agrees_iff :
    (s.assessPullWork.runnableNow = true ↔ (s.collectPullIterationSeeds .empty).items ≠ []) ↔
      (∃ a, s.Shared a) ∨ ((∃ a, s.Undemanded a) ↔ ∃ a, s.MaterializerEffect a) := by
  rw [reports_iff_seeds, collects_iff_seeds, exists_or, exists_or]
  tauto

/-- A computation asked for by request, which nothing live reads: the loop runs it, and the
oracle does not know of it. -/
theorem requested_computation_unreported :
    let s := (((init ⟨none, none⟩ 0 : PullSchedulingState Nat Nat).activate 0
      ⟨.computation, 0, false, none⟩ .neverRan).request 0)
    ¬ (s.assessPullWork.runnableNow = true ↔
      (s.collectPullIterationSeeds .empty).items ≠ []) := by decide +kernel

end PullSchedulingState

end Scheduler
