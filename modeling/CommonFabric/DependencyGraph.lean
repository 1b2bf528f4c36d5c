import Mathlib.Logic.Function.Basic
import CommonFabric.Demand
import CommonFabric.SchedulerKeys
import CommonFabric.TriggerIndex
import CommonFabric.Worklist

/-!
# The writer index

The surface of an action is what it may write. The index finds the actions that may write a
document by its space, its id and the name of its scope.
-/

namespace Scheduler

variable {Action : Type} [DecidableEq Action]

/-- The write index; an entity no action writes has the empty set. -/
structure SchedulerWriteIndex (Action : Type) where
  currentKnownWrites : Action → Option (List IMemorySpaceAddress)
  writersByEntity : JsString → JsSet Action
  actionWriteEntities : Action → Option (JsSet JsString)

namespace SchedulerWriteIndex

def empty : SchedulerWriteIndex Action := ⟨fun _ => none, fun _ => .empty, fun _ => none⟩

def getSchedulingWrites (index : SchedulerWriteIndex Action) (action : Action) :
    Option (List IMemorySpaceAddress) := index.currentKnownWrites action

/-- What becomes of the writers of each of some entities. -/
def updateWriters (f : JsSet Action → JsSet Action) (entities : List JsString)
    (writersByEntity : JsString → JsSet Action) : JsString → JsSet Action :=
  entities.foldl (fun m entity => Function.update m entity (f (m entity))) writersByEntity

/-- `updateWriterIndex`, less what it reports to the serving loop, which changes no index. -/
def updateWriterIndex (index : SchedulerWriteIndex Action) (action : Action)
    (nextSchedulingWrites : List IMemorySpaceAddress) : SchedulerWriteIndex Action :=
  let existingEntities := (index.actionWriteEntities action).getD .empty
  let nextEntities := JsSet.empty.addAll (nextSchedulingWrites.map entityNameKey)
  let addedEntities := nextEntities.items.filter (· ∉ existingEntities)
  let removedEntities := existingEntities.items.filter (· ∉ nextEntities)
  { index with
    writersByEntity := updateWriters (·.add action) addedEntities
      (updateWriters (·.delete action) removedEntities index.writersByEntity)
    actionWriteEntities := Function.update index.actionWriteEntities action (some nextEntities) }

def setSurface (index : SchedulerWriteIndex Action) (action : Action)
    (surface : List IMemorySpaceAddress) : SchedulerWriteIndex Action :=
  { index with
    currentKnownWrites := Function.update index.currentKnownWrites action (some surface) }
    |>.updateWriterIndex action surface

/-- `clearAction`, which keeps the surface that `getSchedulingWrites` answers. -/
def clearAction (index : SchedulerWriteIndex Action) (action : Action) :
    SchedulerWriteIndex Action :=
  match index.actionWriteEntities action with
  | none => index
  | some writeEntities =>
    { index with
      writersByEntity := updateWriters (·.delete action) writeEntities.items index.writersByEntity
      actionWriteEntities := Function.update index.actionWriteEntities action none }

end SchedulerWriteIndex

/-- Whether a read and a write name the same document, by its scope's name. -/
def sameEntity (read write : IMemorySpaceAddress) : Bool :=
  decide (read.space = write.space) && decide (read.id = write.id) &&
    decide (normalizeCellScope read.scope = normalizeCellScope write.scope)

def readsOverlapWrites (reads shallowReads writes : List IMemorySpaceAddress) : Bool :=
  (reads.any fun read => writes.any fun write =>
    sameEntity read write && arraysOverlap write.path read.path) ||
  shallowReads.any fun read => writes.any fun write =>
    sameEntity read write && nonRecursiveReadMayOverlapWrite read.path write.path

/-- The test of one read alone against a writer's surface. -/
def SchedulerWriteIndex.overlaps (index : SchedulerWriteIndex Action) (shallow : Bool)
    (read : IMemorySpaceAddress) (writer : Action) : Bool :=
  let writes := (index.getSchedulingWrites writer).getD []
  if shallow then readsOverlapWrites [] [read] writes else readsOverlapWrites [read] [] writes

/-- The scan of one read against the writers indexed on its entity. -/
def scan {σ : Type} (index : SchedulerWriteIndex Action) (filter : σ → Action → Bool)
    (visit : σ → Action → σ) (shallow : Bool) (s : σ) (read : IMemorySpaceAddress) : σ :=
  (index.writersByEntity (entityNameKey read)).items.foldl (fun s writer =>
    if filter s writer then if index.overlaps shallow read writer then visit s writer else s
    else s) s

/-- `forEachOverlappingWriter` with a visitor that never stops the scan. -/
def forEachOverlappingWriter {σ : Type} (index : SchedulerWriteIndex Action)
    (reads shallowReads : List IMemorySpaceAddress) (filter : σ → Action → Bool)
    (visit : σ → Action → σ) (s : σ) : σ :=
  shallowReads.foldl (scan index filter visit true) (reads.foldl (scan index filter visit false) s)

/-- Whether a log reads what an action may write, as the index finds it. -/
def SchedulerWriteIndex.Feeds (index : SchedulerWriteIndex Action) (log : ReactivityLog)
    (writer : Action) : Prop :=
  (∃ read ∈ log.reads, writer ∈ index.writersByEntity (entityNameKey read) ∧
    index.overlaps false read writer = true) ∨
  ∃ read ∈ log.shallowReads, writer ∈ index.writersByEntity (entityNameKey read) ∧
    index.overlaps true read writer = true

section
variable {index : SchedulerWriteIndex Action} {action : Action}

/-- The writers other than `action` that are collected once each. -/
def collects (action : Action) (dependencies : JsSet Action) (writer : Action) : Bool :=
  decide (writer ≠ action) && !dependencies.has writer

theorem mem_scan {shallow : Bool} {s : JsSet Action} {read : IMemorySpaceAddress}
    {writer : Action} :
    writer ∈ scan index (collects action) JsSet.add shallow s read ↔ writer ∈ s ∨
      writer ≠ action ∧ writer ∈ index.writersByEntity (entityNameKey read) ∧
        index.overlaps shallow read writer = true := by
  rw [scan, ← JsSet.mem_items (s := index.writersByEntity (entityNameKey read))]
  induction (index.writersByEntity (entityNameKey read)).items generalizing s with
  | nil => simp
  | cons w ws ih =>
    rw [List.foldl_cons, ih, List.mem_cons]
    by_cases hw : collects action s w = true
    · rw [if_pos hw]
      simp only [collects, Bool.and_eq_true, decide_eq_true_eq] at hw
      by_cases ho : index.overlaps shallow read w = true
      · rw [if_pos ho, JsSet.mem_add]
        by_cases hww : writer = w
        · subst hww
          simp [hw.1, ho]
        · simp [hww]
      · rw [if_neg ho]
        by_cases hww : writer = w
        · subst hww
          simp [ho]
        · simp [hww]
    · rw [if_neg hw]
      by_cases hww : writer = w
      · subst hww
        simp only [collects, Bool.and_eq_true, decide_eq_true_eq, Bool.not_eq_true'] at hw
        by_cases hs : writer ∈ s
        · simp [hs]
        · have ha : writer = action := by
            by_contra hne
            exact hw ⟨hne, Bool.eq_false_of_not_eq_true fun h => hs (JsSet.has_iff.1 h)⟩
          simp [ha]
      · simp [hww]

theorem mem_foldl_scan {shallow : Bool} {s : JsSet Action} {reads : List IMemorySpaceAddress}
    {writer : Action} :
    writer ∈ reads.foldl (scan index (collects action) JsSet.add shallow) s ↔ writer ∈ s ∨
      writer ≠ action ∧ ∃ read ∈ reads, writer ∈ index.writersByEntity (entityNameKey read) ∧
        index.overlaps shallow read writer = true := by
  induction reads generalizing s with
  | nil => simp
  | cons read reads ih =>
    rw [List.foldl_cons, ih, mem_scan]
    simp only [List.mem_cons, exists_eq_or_imp]
    tauto

theorem mem_forEachOverlappingWriter {log : ReactivityLog} {writer : Action} :
    writer ∈ forEachOverlappingWriter index log.reads log.shallowReads (collects action) JsSet.add
      JsSet.empty ↔ writer ≠ action ∧ index.Feeds log writer := by
  rw [forEachOverlappingWriter, mem_foldl_scan, mem_foldl_scan, SchedulerWriteIndex.Feeds]
  simp only [JsSet.not_mem_empty, false_or]
  exact and_or_left.symm
end

end Scheduler

namespace Scheduler

inductive NodeKind where
  | computation | effect
  deriving DecidableEq

structure SchedulerNode where
  kind : NodeKind
  liveRefs : Int
  provisionalDemand : Bool
  provisionalDemandPass : Option Nat

/-- The registry of nodes. A record outlives the registration of its action; `all` holds the
actions that are registered. -/
structure NodeRegistry (Action : Type) where
  records : Action → Option SchedulerNode
  all : JsSet Action
  activeEffects : JsSet Action
  activeComputations : JsSet Action
  demandedWriters : JsSet Action
  known : ∀ a ∈ all, (records a).isSome = true
  kinds : ∀ a, a ∈ all ↔ a ∈ activeEffects ∨ a ∈ activeComputations

variable {Action : Type} [DecidableEq Action]

namespace NodeRegistry

def empty : NodeRegistry Action where
  records _ := none
  all := .empty
  activeEffects := .empty
  activeComputations := .empty
  demandedWriters := .empty
  known a h := absurd h (JsSet.not_mem_empty a)
  kinds a := by simp

def isEffect (nodes : NodeRegistry Action) (action : Action) : Bool :=
  nodes.activeEffects.has action

def isComputation (nodes : NodeRegistry Action) (action : Action) : Bool :=
  nodes.activeComputations.has action

def isKnownEffect (nodes : NodeRegistry Action) (action : Action) : Bool :=
  (nodes.records action).any (·.kind = .effect)

/-- Assignment to the record of an action. -/
def modify (nodes : NodeRegistry Action) (action : Action) (f : SchedulerNode → SchedulerNode) :
    NodeRegistry Action :=
  { nodes with
    records := Function.update nodes.records action ((nodes.records action).map f)
    known := fun a ha => by
      by_cases h : a = action
      · subst h
        simpa using nodes.known a ha
      · simpa [h] using nodes.known a ha }

/-- `#activate`, of the record the action now has. -/
def activate (nodes : NodeRegistry Action) (action : Action) (record : SchedulerNode) :
    NodeRegistry Action where
  records := Function.update nodes.records action (some record)
  all := nodes.all.add action
  activeEffects := match record.kind with
    | .effect => nodes.activeEffects.add action
    | .computation => nodes.activeEffects.delete action
  activeComputations := match record.kind with
    | .effect => nodes.activeComputations.delete action
    | .computation => nodes.activeComputations.add action
  demandedWriters := nodes.demandedWriters
  known a ha := by
    by_cases h : a = action
    · simp [h]
    · simpa [h] using nodes.known a (by simpa [h] using ha)
  kinds a := by
    by_cases h : a = action
    · cases record.kind <;> simp [h]
    · cases record.kind <;> simp [h, nodes.kinds]

/-- `register`; an effect is never made a computation again. -/
def register (nodes : NodeRegistry Action) (action : Action) (kind : NodeKind) :
    Except EngineError (NodeRegistry Action) :=
  match nodes.records action with
  | some existing =>
    if existing.kind = .effect ∧ kind = .computation then
      .error (.error ("Scheduler action re-registered as computation; was effect" : JsString))
    else .ok (nodes.activate action { existing with kind := kind })
  | none => .ok (nodes.activate action ⟨kind, 0, false, none⟩)

def remove (nodes : NodeRegistry Action) (action : Action) : NodeRegistry Action :=
  match nodes.records action with
  | none => nodes
  | some _ =>
    { nodes with
      all := nodes.all.delete action
      activeEffects := nodes.activeEffects.delete action
      activeComputations := nodes.activeComputations.delete action
      known := fun a ha => nodes.known a (JsSet.mem_delete.1 ha).2
      kinds := fun a => by
        by_cases h : a = action
        · simp [h]
        · simp [h, nodes.kinds] }

end NodeRegistry

/-- The state of the graph. An action without readers, or without writers, has the empty set. -/
structure DependencyGraphState (Action : Type) where
  scopeKeyIdentity : ScopeKeyIdentity
  triggerIndex : SchedulerTriggerIndex Action
  cancels : JsSet Action
  writeIndex : SchedulerWriteIndex Action
  dependencies : Action → Option ReactivityLog
  dependents : Action → JsSet Action
  reverseDependencies : Action → JsSet Action
  nodes : NodeRegistry Action
  materializers : JsSet Action

namespace DependencyGraphState

def init (identity : ScopeKeyIdentity) : DependencyGraphState Action where
  scopeKeyIdentity := identity
  triggerIndex := .empty
  cancels := .empty
  writeIndex := .empty
  dependencies _ := none
  dependents _ := .empty
  reverseDependencies _ := .empty
  nodes := .empty
  materializers := .empty

def isRegisteredNode (s : DependencyGraphState Action) (action : Action) : Bool :=
  s.nodes.isEffect action || s.nodes.isComputation action

/-- The registered actions, which the test above picks out. -/
def registered (s : DependencyGraphState Action) : List Action :=
  s.nodes.activeEffects.items ++ s.nodes.activeComputations.items

def isDemandRoot (s : DependencyGraphState Action) (action : Action) (node : SchedulerNode) : Bool :=
  s.nodes.isEffect action || node.provisionalDemand || s.materializers.has action ||
    s.nodes.demandedWriters.has action

/-- `isLive` of the record of an action, if it has one. -/
def isLive (s : DependencyGraphState Action) (action : Action) : Bool :=
  match s.nodes.records action with
  | none => false
  | some node =>
    s.isRegisteredNode action && (s.isDemandRoot action node || decide (0 < node.liveRefs))

def modifyRefs (s : DependencyGraphState Action) (action : Action) (f : Int → Int) :
    DependencyGraphState Action :=
  { s with nodes := s.nodes.modify action fun node => { node with liveRefs := f node.liveRefs } }

variable {a : Action} {s : DependencyGraphState Action}

theorem mem_registered : s.isRegisteredNode a = true → a ∈ s.registered := by
  simp [isRegisteredNode, registered, NodeRegistry.isEffect, NodeRegistry.isComputation,
    JsSet.mem_items]

def graph (s : DependencyGraphState Action) : Demand.Graph Action where
  readers := s.dependents
  writers := s.reverseDependencies
  active := s.isRegisteredNode
  root a := (s.nodes.records a).any (s.isDemandRoot a)

def refs (s : DependencyGraphState Action) (a : Action) : Int :=
  ((s.nodes.records a).map (·.liveRefs)).getD 0

theorem record_of_registered (h : s.isRegisteredNode a = true) :
    ∃ node, s.nodes.records a = some node := by
  have hall : a ∈ s.nodes.all := by
    rw [s.nodes.kinds]
    simpa [isRegisteredNode, NodeRegistry.isEffect, NodeRegistry.isComputation] using h
  exact Option.isSome_iff_exists.1 (s.nodes.known a hall)

theorem isLive_eq (s : DependencyGraphState Action) (a : Action) :
    s.isLive a = Demand.live s.graph s.refs a := by
  rw [isLive, Demand.live, graph, refs]
  cases hrecord : s.nodes.records a with
  | none =>
    have hnot : s.isRegisteredNode a = false := by
      by_contra h
      obtain ⟨node, hnode⟩ := record_of_registered (Bool.eq_true_of_not_eq_false h)
      simp [hrecord] at hnode
    simp [hnot]
  | some node => simp [hrecord]

@[simp] theorem graph_modifyRefs (s : DependencyGraphState Action) (a : Action) (f : Int → Int) :
    (s.modifyRefs a f).graph = s.graph := by
  have hroot : ∀ b, ((s.modifyRefs a f).nodes.records b).any ((s.modifyRefs a f).isDemandRoot b) =
      (s.nodes.records b).any (s.isDemandRoot b) := by
    intro b
    by_cases hb : b = a
    · subst hb
      have hrecord : (s.modifyRefs b f).nodes.records b =
          (s.nodes.records b).map fun node => { node with liveRefs := f node.liveRefs } :=
        Function.update_self ..
      rw [hrecord, Option.any_map]
      rfl
    · have hrecord : (s.modifyRefs a f).nodes.records b = s.nodes.records b :=
        Function.update_of_ne hb ..
      rw [hrecord]
      rfl
  exact congrArg (Demand.Graph.mk s.dependents s.reverseDependencies s.isRegisteredNode)
    (funext hroot)

theorem refs_modifyRefs {node : SchedulerNode} (h : s.nodes.records a = some node) (f : Int → Int) :
    (s.modifyRefs a f).refs = Function.update s.refs a (f (s.refs a)) := by
  funext b
  by_cases hb : b = a
  · subst hb
    simp [refs, modifyRefs, NodeRegistry.modify, h]
  · simp [refs, modifyRefs, NodeRegistry.modify, hb]

/-- One turn of the loop over a reader's writers: the writer gains a reference, and joins the
stack if that brings it alive. -/
def passDemand (s : DependencyGraphState Action × List Action) (writer : Action) :
    DependencyGraphState Action × List Action :=
  if s.1.isRegisteredNode writer then
    (s.1.modifyRefs writer (· + 1), if s.1.isLive writer then s.2 else writer :: s.2)
  else s

theorem passDemand_eq (s : DependencyGraphState Action × List Action) (writer : Action) :
    (passDemand s writer).1.graph = s.1.graph ∧
      ((passDemand s writer).1.refs, (passDemand s writer).2) =
        Demand.passOn s.1.graph (s.1.refs, s.2) writer := by
  rw [passDemand, Demand.passOn]
  by_cases hreg : s.1.isRegisteredNode writer = true
  · have hact : s.1.graph.active writer = true := hreg
    obtain ⟨node, hnode⟩ := record_of_registered hreg
    rw [if_pos hreg, if_pos hact]
    exact ⟨graph_modifyRefs _ _ _, by rw [refs_modifyRefs hnode, isLive_eq]⟩
  · have hact : ¬s.1.graph.active writer = true := hreg
    rw [if_neg hreg, if_neg hact]
    exact ⟨rfl, rfl⟩

/-- The loop passes references as the counts of the graph do. -/
theorem foldl_passDemand_eq (todo : List Action) (s : DependencyGraphState Action × List Action) :
    (todo.foldl passDemand s).1.graph = s.1.graph ∧
      ((todo.foldl passDemand s).1.refs, (todo.foldl passDemand s).2) =
        todo.foldl (Demand.passOn s.1.graph) (s.1.refs, s.2) := by
  induction todo generalizing s with
  | nil => exact ⟨rfl, rfl⟩
  | cons w todo ih =>
    obtain ⟨hgraph, hpass⟩ := passDemand_eq s w
    obtain ⟨hgraph', hpass'⟩ := ih (passDemand s w)
    rw [List.foldl_cons, List.foldl_cons, ← hpass]
    exact ⟨hgraph'.trans hgraph, hgraph ▸ hpass'⟩

/-- How far the counts are from all nodes being live. -/
def shortfall (s : DependencyGraphState Action) : Nat := Demand.shortfall s.graph s.registered s.refs

theorem registered_passDemand (s : DependencyGraphState Action × List Action) (w : Action) :
    (passDemand s w).1.registered = s.1.registered := by
  rw [passDemand]
  split <;> rfl

theorem registered_foldl_passDemand (todo : List Action)
    (s : DependencyGraphState Action × List Action) :
    (todo.foldl passDemand s).1.registered = s.1.registered := by
  induction todo generalizing s with
  | nil => rfl
  | cons w todo ih => rw [List.foldl_cons, ih, registered_passDemand]

/-- Of a pass over a stack, either a node came alive or the stack is shorter. -/
theorem shortfall_foldl_passDemand (todo : List Action)
    (s : DependencyGraphState Action × List Action) :
    (todo.foldl passDemand s).1.shortfall < s.1.shortfall ∨
      (todo.foldl passDemand s).2 = s.2 ∧
        (todo.foldl passDemand s).1.shortfall ≤ s.1.shortfall := by
  obtain ⟨hgraph, hpass⟩ := foldl_passDemand_eq todo s
  have hrun := Demand.shortfall_run (g := s.1.graph) (fun a ha => mem_registered ha) todo
    (s.1.refs, s.2)
  rw [← hpass] at hrun
  rw [shortfall, shortfall, hgraph, registered_foldl_passDemand]
  exact hrun

/-- The turn of a reader that came alive. -/
def passAll (s : DependencyGraphState Action) (reader : Action) (stack : List Action) :
    DependencyGraphState Action × List Action :=
  (s.reverseDependencies reader).items.foldl passDemand (s, stack)

/-- `propagateDemand`, over a stack whose top is the head of the list. -/
def propagateDemand (s : DependencyGraphState Action) :
    List Action → DependencyGraphState Action
  | [] => s
  | reader :: stack =>
    propagateDemand (s.passAll reader stack).1 (s.passAll reader stack).2
termination_by stack => (s.shortfall, stack.length)
decreasing_by
  rcases shortfall_foldl_passDemand (s.reverseDependencies reader).items (s, stack) with
    hlt | ⟨hstack, hle⟩
  · exact Prod.Lex.left _ _ hlt
  · rw [passAll, hstack]
    rcases Nat.lt_or_eq_of_le hle with hlt | heq
    · exact Prod.Lex.left _ _ hlt
    · rw [heq]
      exact Prod.Lex.right _ (by simp)

def grantDemandFrom (s : DependencyGraphState Action) (action : Action) :
    DependencyGraphState Action := s.propagateDemand [action]

/-- The registered actions upstream of some, with them: the walk over the writers of each. -/
def upstream (s : DependencyGraphState Action) (from_ : JsSet Action) : JsSet Action :=
  Worklist.spread (fun reader => (s.reverseDependencies reader).items) s.isRegisteredNode
    s.registered (fun _ => mem_registered) from_ from_.items.reverse

/-- One reader of a node whose region is counted again. -/
def countSupport (region : JsSet Action) (action : Action)
    (s : DependencyGraphState Action × Bool) (reader : Action) :
    DependencyGraphState Action × Bool :=
  if reader ∈ region then s
  else if s.1.isLive reader then (s.1.modifyRefs action (· + 1), true)
  else s

/-- The count of one node of a region, which seeds the demand there if it is supported. -/
def reseed (region : JsSet Action) (s : DependencyGraphState Action × List Action)
    (action : Action) : DependencyGraphState Action × List Action :=
  let supported := (s.1.dependents action).items.foldl (countSupport region action)
    (s.1, (s.1.nodes.records action).any (s.1.isDemandRoot action))
  (supported.1, if supported.2 then action :: s.2 else s.2)

def clearRefs (s : DependencyGraphState Action) (actions : List Action) :
    DependencyGraphState Action :=
  actions.foldl (fun s action => s.modifyRefs action fun _ => 0) s

def withdrawDemandFrom (s : DependencyGraphState Action) (origin : Action) :
    DependencyGraphState Action :=
  if !s.isRegisteredNode origin then s
  else if (s.nodes.records origin).any (s.isDemandRoot origin) then s
  else
    let region := s.upstream (JsSet.empty.add origin)
    let seeded := region.items.foldl (reseed region) (s.clearRefs region.items, [])
    seeded.1.propagateDemand seeded.2

def notifyNodeLivenessChange (s : DependencyGraphState Action) (action : Action)
    (wasLive : Bool) : DependencyGraphState Action :=
  match s.nodes.records action with
  | none => s
  | some _ =>
    if wasLive then s.withdrawDemandFrom action
    else
      let s := if s.isRegisteredNode action then
          s.modifyRefs action fun _ => (s.dependents action).count s.isLive
        else s
      if s.isLive action then s.grantDemandFrom action else s

/-- `setNodeProvisionalDemand`, of the record of an action. -/
def setNodeProvisionalDemand (s : DependencyGraphState Action) (action : Action)
    (provisionalDemand : Bool) (passId : Option Nat) : DependencyGraphState Action :=
  let wasLive := s.isLive action
  let s := { s with nodes := s.nodes.modify action fun node =>
    { node with
      provisionalDemand := provisionalDemand
      provisionalDemandPass := if provisionalDemand then passId else none } }
  if provisionalDemand then
    if !wasLive && s.isLive action then s.grantDemandFrom action else s
  else s.withdrawDemandFrom action

def registerDependentEdge (s : DependencyGraphState Action) (writer dependent : Action) :
    DependencyGraphState Action :=
  if writer = dependent then s
  else
    let alreadyDependent := (s.dependents writer).has dependent
    let s := { s with
      dependents := Function.update s.dependents writer ((s.dependents writer).add dependent)
      reverseDependencies := Function.update s.reverseDependencies dependent
        ((s.reverseDependencies dependent).add writer) }
    if alreadyDependent then s
    else if s.isRegisteredNode writer && s.isLive dependent then
      let wasLive := s.isLive writer
      let s := s.modifyRefs writer (· + 1)
      if wasLive then s else s.grantDemandFrom writer
    else s

def unregisterDependentEdge (s : DependencyGraphState Action) (writer dependent : Action) :
    DependencyGraphState Action :=
  let hadDependent := (s.dependents writer).has dependent
  let s := { s with
    dependents := Function.update s.dependents writer ((s.dependents writer).delete dependent)
    reverseDependencies := Function.update s.reverseDependencies dependent
      ((s.reverseDependencies dependent).delete writer) }
  if hadDependent then
    let s := if s.isRegisteredNode writer && s.isLive dependent then
        s.modifyRefs writer (· - 1)
      else s
    s.withdrawDemandFrom writer
  else s

def collectReverseDependenciesForLog (s : DependencyGraphState Action) (action : Action)
    (log : ReactivityLog) : JsSet Action :=
  forEachOverlappingWriter s.writeIndex log.reads log.shallowReads (collects action) JsSet.add
    JsSet.empty

/-- `updateDependentEdgesForLog`; the set it walks first loses members as it goes. -/
def updateDependentEdgesForLog (s : DependencyGraphState Action) (action : Action)
    (log : ReactivityLog) : DependencyGraphState Action :=
  let previousDependencies := s.reverseDependencies action
  let newDependencies := s.collectReverseDependenciesForLog action log
  let s := (previousDependencies.items.filter (· ∉ newDependencies)).foldl
    (fun s dependency => s.unregisterDependentEdge dependency action) s
  let s := (newDependencies.items.filter (· ∉ previousDependencies)).foldl
    (fun s dependency => s.registerDependentEdge dependency action) s
  { s with reverseDependencies := Function.update s.reverseDependencies action newDependencies }

/-- `registerDependentsForWriterSurface`; the readers are collected before any edge is added. -/
def registerDependentsForWriterSurface (s : DependencyGraphState Action) (writer : Action)
    (writes : List IMemorySpaceAddress) : Except EngineError (DependencyGraphState Action) := do
  let readers ← writes.foldlM (fun readers write => do
      let found ← collectReadersForWrite s.triggerIndex s.scopeKeyIdentity write
      .ok (readers.addAll found.items)) JsSet.empty
  .ok ((readers.delete writer).items.foldl
    (fun s action => s.registerDependentEdge writer action) s)

/-- What the registration of an action's log does to the edges and the triggers: the log
replaces the one before it. -/
def updateActionLog (s : DependencyGraphState Action) (action : Action) (log : ReactivityLog) :
    Except EngineError (DependencyGraphState Action) := do
  let previousLog := (s.dependencies action).getD ⟨[], []⟩
  let s := { s with dependencies := Function.update s.dependencies action (some log) }
  let s := s.updateDependentEdgesForLog action log
  let triggerIndex ← applyActionReadDelta s.triggerIndex s.scopeKeyIdentity action previousLog log
  .ok { s with triggerIndex := triggerIndex, cancels := s.cancels.add action }

/-- What the registration of a writer's surface does to the edges. -/
def registerSurface (s : DependencyGraphState Action) (action : Action)
    (surface : List IMemorySpaceAddress) : Except EngineError (DependencyGraphState Action) :=
  { s with writeIndex := s.writeIndex.setSurface action surface }
    |>.registerDependentsForWriterSurface action surface

/-- One reader that can be reached hands a reference to each writer that can. -/
def tally (reachable : JsSet Action) (s : DependencyGraphState Action) (reader : Action) :
    DependencyGraphState Action :=
  (s.reverseDependencies reader).items.foldl (fun s writer =>
    if reachable.has writer && s.isRegisteredNode writer then s.modifyRefs writer (· + 1)
    else s) s

/-- `recomputeLiveRefs`: the references the demand roots give, counted at a stroke. -/
def recomputeLiveRefs (s : DependencyGraphState Action) : DependencyGraphState Action :=
  let cleared := s.clearRefs s.nodes.all.items
  let roots := JsSet.empty.addAll (s.nodes.all.items.filter fun action =>
    (s.nodes.records action).any (s.isDemandRoot action))
  let reachable := cleared.upstream roots
  reachable.items.foldl (tally reachable) cleared

/-- `updateSchedulerActionType`: the registration of an action, or its promotion. -/
def updateSchedulerActionType (s : DependencyGraphState Action) (action : Action)
    (isEffect : Bool) : Except EngineError (DependencyGraphState Action) := do
  let kind := if isEffect || s.nodes.isKnownEffect action then NodeKind.effect else .computation
  let wasLive := s.isLive action
  let nodes ← s.nodes.register action kind
  .ok ({ s with nodes := nodes }.notifyNodeLivenessChange action wasLive)

/-- `#updateMaterializerRegistration`; of write envelopes, only whether there are any. -/
def updateMaterializerRegistration (s : DependencyGraphState Action) (action : Action)
    (envelopes : List IMemorySpaceAddress) : DependencyGraphState Action :=
  let wasLive := s.isLive action
  let materializers := s.materializers.delete action
  { s with materializers := if envelopes = [] then materializers else materializers.add action }
    |>.notifyNodeLivenessChange action wasLive

/-- `#reconcileDemandedWriter`, once it is known whether the action writes a demanded entity. -/
def reconcileDemandedWriter (s : DependencyGraphState Action) (action : Action)
    (shouldBeRoot : Bool) : DependencyGraphState Action :=
  if shouldBeRoot = s.nodes.demandedWriters.has action then s
  else
    let wasLive := s.isLive action
    { s with nodes := { s.nodes with
        demandedWriters := if shouldBeRoot then s.nodes.demandedWriters.add action
          else s.nodes.demandedWriters.delete action } }
      |>.notifyNodeLivenessChange action wasLive

/-- `removeReverseDependencyEdges`. -/
def removeReverseDependencyEdges (s : DependencyGraphState Action) (action : Action) :
    DependencyGraphState Action :=
  let s := (s.reverseDependencies action).items.foldl
    (fun s dependency => s.unregisterDependentEdge dependency action) s
  (s.dependents action).items.foldl
    (fun s dependent => s.unregisterDependentEdge action dependent) s

/-- `clearActionTypeTracking`. -/
def clearActionTypeTracking (s : DependencyGraphState Action) (action : Action) :
    DependencyGraphState Action :=
  let s := if (s.nodes.records action).any (·.provisionalDemand) then
      s.setNodeProvisionalDemand action false none
    else s
  { s with nodes := s.nodes.remove action }

/-- `unsubscribe`: `unsubscribeSchedulerAction`, and the envelopes of a materializer after it. -/
def unsubscribe (s : DependencyGraphState Action) (action : Action) :
    Except EngineError (DependencyGraphState Action) := do
  let triggerIndex ← (if s.cancels.has action then s.triggerIndex.removeAction action
    else .ok s.triggerIndex)
  let s := { s with
    triggerIndex := triggerIndex
    cancels := s.cancels.delete action
    dependencies := Function.update s.dependencies action none }
  let s := (s.removeReverseDependencyEdges action).clearActionTypeTracking action
  .ok { s with
    writeIndex := s.writeIndex.clearAction action
    materializers := s.materializers.delete action }

/-- A state that differs in its registry of nodes at most. -/
def OnlyNodes (s s' : DependencyGraphState Action) : Prop := ∃ nodes, s' = { s with nodes := nodes }

namespace OnlyNodes

variable {s s' s'' : DependencyGraphState Action}

omit [DecidableEq Action] in
theorem refl (s : DependencyGraphState Action) : OnlyNodes s s := ⟨s.nodes, rfl⟩

omit [DecidableEq Action] in
theorem trans (h : OnlyNodes s s') (h' : OnlyNodes s' s'') : OnlyNodes s s'' := by
  obtain ⟨nodes, rfl⟩ := h
  obtain ⟨nodes', rfl⟩ := h'
  exact ⟨nodes', rfl⟩

theorem modifyRefs (h : OnlyNodes s s') (action : Action) (f : Int → Int) :
    OnlyNodes s (s'.modifyRefs action f) := h.trans ⟨_, rfl⟩

omit [DecidableEq Action] in
/-- A loop each of whose turns keeps all but the registry. -/
theorem foldl {β σ : Type} (state : σ → DependencyGraphState Action) (turn : σ → β → σ)
    (hturn : ∀ x b, OnlyNodes (state x) (state (turn x b))) (todo : List β) (x : σ) :
    OnlyNodes (state x) (state (todo.foldl turn x)) := by
  induction todo generalizing x with
  | nil => exact ⟨_, rfl⟩
  | cons b todo ih => exact (hturn x b).trans (ih (turn x b))

omit [DecidableEq Action] in
theorem dependents (h : OnlyNodes s s') : s'.dependents = s.dependents := by
  obtain ⟨nodes, rfl⟩ := h
  rfl

end OnlyNodes

theorem onlyNodes_passDemand (s : DependencyGraphState Action × List Action) (writer : Action) :
    OnlyNodes s.1 (passDemand s writer).1 := by
  rw [passDemand]
  split
  · exact (OnlyNodes.refl s.1).modifyRefs writer (· + 1)
  · exact .refl _

theorem onlyNodes_propagateDemand (s : DependencyGraphState Action) (stack : List Action) :
    OnlyNodes s (s.propagateDemand stack) := by
  induction s, stack using propagateDemand.induct with
  | case1 s =>
    rw [propagateDemand]
    exact .refl s
  | case2 s reader stack ih =>
    rw [propagateDemand]
    exact (OnlyNodes.foldl Prod.fst passDemand onlyNodes_passDemand _ (s, stack)).trans ih

theorem onlyNodes_reseed (region : JsSet Action) (s : DependencyGraphState Action × List Action)
    (action : Action) : OnlyNodes s.1 (reseed region s action).1 := by
  refine OnlyNodes.foldl Prod.fst (countSupport region action) (fun x reader => ?_) _
    (s.1, (s.1.nodes.records action).any (s.1.isDemandRoot action))
  rw [countSupport]
  split
  · exact .refl _
  · split
    · exact (OnlyNodes.refl x.1).modifyRefs action (· + 1)
    · exact .refl _

theorem onlyNodes_withdrawDemandFrom (s : DependencyGraphState Action) (origin : Action) :
    OnlyNodes s (s.withdrawDemandFrom origin) := by
  rw [withdrawDemandFrom]
  split
  · exact .refl s
  · split
    · exact .refl s
    · have hclear : ∀ actions, OnlyNodes s (s.clearRefs actions) := fun actions =>
        OnlyNodes.foldl id _ (fun x b => (OnlyNodes.refl x).modifyRefs b fun _ => 0) actions s
      refine OnlyNodes.trans ?_ (onlyNodes_propagateDemand _ _)
      exact (hclear _).trans (OnlyNodes.foldl Prod.fst _ (onlyNodes_reseed _) _ (_, []))

theorem mem_update_add {f : Action → JsSet Action} {w d r : Action} :
    r ∈ Function.update f w ((f w).add d) a ↔ r ∈ f a ∨ a = w ∧ r = d := by
  by_cases ha : a = w
  · subst ha
    simp [or_comm]
  · simp [ha]

theorem mem_update_delete {f : Action → JsSet Action} {w d r : Action} :
    r ∈ Function.update f w ((f w).delete d) a ↔ r ∈ f a ∧ ¬(a = w ∧ r = d) := by
  by_cases ha : a = w
  · subst ha
    simp [and_comm]
  · simp [ha]

/-- The state with one edge more. -/
def link (s : DependencyGraphState Action) (writer dependent : Action) :
    DependencyGraphState Action :=
  { s with
    dependents := Function.update s.dependents writer ((s.dependents writer).add dependent)
    reverseDependencies := Function.update s.reverseDependencies dependent
      ((s.reverseDependencies dependent).add writer) }

/-- The state with one edge less. -/
def unlink (s : DependencyGraphState Action) (writer dependent : Action) :
    DependencyGraphState Action :=
  { s with
    dependents := Function.update s.dependents writer ((s.dependents writer).delete dependent)
    reverseDependencies := Function.update s.reverseDependencies dependent
      ((s.reverseDependencies dependent).delete writer) }

theorem onlyNodes_registerDependentEdge (s : DependencyGraphState Action)
    {writer dependent : Action} (hne : writer ≠ dependent) :
    OnlyNodes (s.link writer dependent) (s.registerDependentEdge writer dependent) := by
  rw [registerDependentEdge, if_neg hne]
  change OnlyNodes _ (if (s.dependents writer).has dependent then s.link writer dependent
    else if s.isRegisteredNode writer && s.isLive dependent then
      if s.isLive writer then (s.link writer dependent).modifyRefs writer (· + 1)
      else ((s.link writer dependent).modifyRefs writer (· + 1)).grantDemandFrom writer
    else s.link writer dependent)
  have hcount := (OnlyNodes.refl (s.link writer dependent)).modifyRefs writer (· + 1)
  split
  · exact .refl _
  · split
    · split
      · exact hcount
      · exact hcount.trans (onlyNodes_propagateDemand _ _)
    · exact .refl _

theorem onlyNodes_unregisterDependentEdge (s : DependencyGraphState Action)
    (writer dependent : Action) :
    OnlyNodes (s.unlink writer dependent) (s.unregisterDependentEdge writer dependent) := by
  rw [unregisterDependentEdge]
  change OnlyNodes _ (if (s.dependents writer).has dependent then
    (if s.isRegisteredNode writer && s.isLive dependent then
        (s.unlink writer dependent).modifyRefs writer (· - 1)
      else s.unlink writer dependent).withdrawDemandFrom writer
    else s.unlink writer dependent)
  split
  · refine OnlyNodes.trans ?_ (onlyNodes_withdrawDemandFrom _ _)
    split
    · exact (OnlyNodes.refl _).modifyRefs writer (· - 1)
    · exact .refl _
  · exact .refl _

variable {s : DependencyGraphState Action}
theorem mem_dependents_registerDependentEdge {writer dependent r : Action} :
    r ∈ (s.registerDependentEdge writer dependent).dependents a ↔
      r ∈ s.dependents a ∨ writer ≠ dependent ∧ a = writer ∧ r = dependent := by
  by_cases hne : writer = dependent
  · rw [registerDependentEdge, if_pos hne]
    simp [hne]
  · rw [(onlyNodes_registerDependentEdge s hne).dependents]
    exact mem_update_add.trans (or_congr_right (and_iff_right hne).symm)

theorem mem_dependents_unregisterDependentEdge {writer dependent r : Action} :
    r ∈ (s.unregisterDependentEdge writer dependent).dependents a ↔
      r ∈ s.dependents a ∧ ¬(a = writer ∧ r = dependent) := by
  rw [(onlyNodes_unregisterDependentEdge s writer dependent).dependents]
  exact mem_update_delete

theorem mem_dependents_foldl_unregister {action : Action} {writers : List Action} {r : Action} :
    r ∈ (writers.foldl (fun s writer => s.unregisterDependentEdge writer action) s).dependents a ↔
      r ∈ s.dependents a ∧ ¬(a ∈ writers ∧ r = action) := by
  induction writers generalizing s with
  | nil => simp
  | cons w writers ih =>
    rw [List.foldl_cons, ih, mem_dependents_unregisterDependentEdge, List.mem_cons]
    tauto

theorem mem_dependents_foldl_register {action : Action} {writers : List Action} {r : Action} :
    r ∈ (writers.foldl (fun s writer => s.registerDependentEdge writer action) s).dependents a ↔
      r ∈ s.dependents a ∨ a ≠ action ∧ a ∈ writers ∧ r = action := by
  induction writers generalizing s with
  | nil => simp
  | cons w writers ih =>
    rw [List.foldl_cons, ih, mem_dependents_registerDependentEdge, List.mem_cons]
    constructor
    · rintro ((h | ⟨hne, rfl, rfl⟩) | ⟨hne, hmem, rfl⟩)
      · exact .inl h
      · exact .inr ⟨hne, .inl rfl, rfl⟩
      · exact .inr ⟨hne, .inr hmem, rfl⟩
    · rintro (h | ⟨hne, rfl | hmem, rfl⟩)
      · exact .inl (.inl h)
      · exact .inl (.inr ⟨hne, rfl, rfl⟩)
      · exact .inr ⟨hne, hmem, rfl⟩

theorem mem_collectReverseDependenciesForLog {action writer : Action} {log : ReactivityLog} :
    writer ∈ s.collectReverseDependenciesForLog action log ↔
      writer ≠ action ∧ s.writeIndex.Feeds log writer := mem_forEachOverlappingWriter

/-- The edges of an action become those its log gives it. -/
theorem mem_dependents_updateDependentEdgesForLog {action : Action} {log : ReactivityLog}
    (hinverse : ∀ w, action ∈ s.dependents w ↔ w ∈ s.reverseDependencies action) {r : Action} :
    r ∈ (s.updateDependentEdgesForLog action log).dependents a ↔
      if r = action then a ∈ s.collectReverseDependenciesForLog action log
      else r ∈ s.dependents a := by
  rw [updateDependentEdgesForLog]
  dsimp only
  rw [mem_dependents_foldl_register, mem_dependents_foldl_unregister]
  by_cases hr : r = action
  · subst hr
    have hne := fun h => (mem_collectReverseDependenciesForLog.1
      (h : a ∈ s.collectReverseDependenciesForLog r log)).1
    simp only [hinverse, List.mem_filter, JsSet.mem_items, decide_eq_true_eq, if_true]
    tauto
  · simp [hr]

end DependencyGraphState

end Scheduler
