import CommonFabric.SchedulerKeys
import CommonFabric.JsMap
import Mathlib.Logic.Function.Basic

/-!
# The trigger index

The reads registered of one document stand in a trie over the components of their paths. A
write visits the nodes along its path and every node below its end. The index holds such a
trie for each scope instance of a document, one for the deep reads and one for the shallow.
-/

namespace Scheduler

variable {Action : Type} [DecidableEq Action]

abbrev SortedAndCompactPaths := List (List JsString)

/-- One path in the trie, and whatever reads end at it. -/
inductive PathNode (Action : Type) where
  | mk (path : List JsString) (actions : JsSet Action) (children : List (JsString × PathNode Action))

namespace PathNode

def path : PathNode Action → List JsString
  | mk path _ _ => path

def actions : PathNode Action → JsSet Action
  | mk _ actions _ => actions

def children : PathNode Action → List (JsString × PathNode Action)
  | mk _ _ children => children

/-- A node that no read ends at, with nothing below it. -/
def pathNode (path : List JsString) : PathNode Action := mk path .empty []

def child? (component : JsString) (children : List (JsString × PathNode Action)) :
    Option (PathNode Action) := (children.find? fun c => c.1 = component).map (·.2)

/-- `#index`, from the node at `walked` down the rest of a path. -/
def index (action : Action) : List JsString → List JsString → PathNode Action → PathNode Action
  | _, [], mk path actions children => mk path (actions.add action) children
  | walked, component :: rest, mk path actions children =>
    let child := (child? component children).getD (pathNode (walked ++ [component]))
    mk path actions
      (JsMap.setEntries component (index action (walked ++ [component]) rest child) children)

/-- `#unindex`; a node that is left holding nothing and leading nowhere is dropped. -/
def unindex (action : Action) (registered : List JsString) :
    List JsString → PathNode Action → Except EngineError (PathNode Action)
  | [], mk path actions children => .ok (mk path (actions.delete action) children)
  | component :: rest, mk path actions children =>
    match child? component children with
    | none => .error (.error (.concat [("Registered read `" : JsString),
        .concat (registered.intersperse ("/" : JsString)), ("` is missing from the index." : JsString)]))
    | some child => do
      let child ← unindex action registered rest child
      if 0 < child.actions.size || 0 < child.children.length then
        .ok (mk path actions (JsMap.setEntries component child children))
      else .ok (mk path actions (children.filter fun c => c.1 ≠ component))

/-- A node as a visit reaches it: its path with the actions that read it, if any does. -/
def visit (node : PathNode Action) : List (List JsString × JsSet Action) :=
  if 0 < node.actions.size then [(node.path, node.actions)] else []

mutual
/-- The visits of a node and of all that is below it. -/
def belowNode : PathNode Action → List (List JsString × JsSet Action)
  | mk path actions children => visit (mk path actions children) ++ belowNodes children

/-- The visits of nodes that are pushed in order, so that the last is visited first. -/
def belowNodes : List (JsString × PathNode Action) → List (List JsString × JsSet Action)
  | [] => []
  | (_, node) :: rest => belowNodes rest ++ belowNode node
end

/-- `forEachMatching`, from the node that the written path has reached. -/
def forEachMatching : List JsString → PathNode Action → List (List JsString × JsSet Action)
  | [], node => node.visit ++ belowNodes node.children
  | component :: rest, mk path actions children =>
    visit (mk path actions children) ++
      match child? component children with
      | none => []
      | some child => forEachMatching rest child

end PathNode

structure EntityTriggers (Action : Type) where
  pathsByAction : JsMap Action SortedAndCompactPaths
  root : PathNode Action

namespace EntityTriggers

def empty : EntityTriggers Action := ⟨.empty, .pathNode []⟩

def size (t : EntityTriggers Action) : Nat := t.pathsByAction.entries.length

def indexAll (action : Action) (paths : SortedAndCompactPaths) (root : PathNode Action) :
    PathNode Action := paths.foldl (fun root path => root.index action [] path) root

def unindexAll (action : Action) (paths : SortedAndCompactPaths) (root : PathNode Action) :
    Except EngineError (PathNode Action) :=
  paths.foldlM (fun root path => root.unindex action path path) root

def set (t : EntityTriggers Action) (action : Action) (paths : SortedAndCompactPaths) :
    Except EngineError (EntityTriggers Action) :=
  match t.pathsByAction.get action with
  | none => .ok ⟨t.pathsByAction.set action paths, indexAll action paths t.root⟩
  | some previous =>
    if previous = paths then .ok t
    else do
      let root ← unindexAll action previous t.root
      .ok ⟨t.pathsByAction.set action paths, indexAll action paths root⟩

def delete (t : EntityTriggers Action) (action : Action) :
    Except EngineError (EntityTriggers Action) :=
  match t.pathsByAction.get action with
  | none => .ok t
  | some previous => do
    let root ← unindexAll action previous t.root
    .ok ⟨t.pathsByAction.delete action, root⟩

def forEachMatching (t : EntityTriggers Action) (writePath : List JsString) :
    List (List JsString × JsSet Action) := t.root.forEachMatching writePath

end EntityTriggers

/-- The paths of some addresses, grouped by the document instance each names. -/
def addressesToPathByEntity (addresses : List IMemorySpaceAddress) (identity : ScopeKeyIdentity) :
    Except EngineError (JsMap JsString SortedAndCompactPaths) :=
  addresses.foldlM (fun map address => do
    let key ← entityKey address identity
    .ok (map.set key ((map.get key).getD [] ++ [address.path]))) .empty

abbrev TriggerMap (Action : Type) := JsString → Option (EntityTriggers Action)

def removeActionFromTriggerMap (triggerMap : TriggerMap Action) (entity : JsString)
    (action : Action) : Except EngineError (TriggerMap Action) :=
  match triggerMap entity with
  | none => .ok triggerMap
  | some triggers => do
    let triggers ← triggers.delete action
    .ok (Function.update triggerMap entity (if triggers.size = 0 then none else some triggers))

/-- The entity's registered reads, started when it has none yet. -/
def triggersFor (triggerMap : TriggerMap Action) (entity : JsString) : EntityTriggers Action :=
  (triggerMap entity).getD .empty

/-- What the delta does at one entity. -/
def applyDeltaAt (action : Action) (nextPathsByEntity : JsMap JsString SortedAndCompactPaths)
    (triggerMap : TriggerMap Action) (entity : JsString) : Except EngineError (TriggerMap Action) :=
  match nextPathsByEntity.get entity with
  | none => removeActionFromTriggerMap triggerMap entity action
  | some nextPaths => do
    let triggers ← (triggersFor triggerMap entity).set action nextPaths
    .ok (Function.update triggerMap entity (some triggers))

def applyActionReadDeltaToMap (triggerMap : TriggerMap Action) (action : Action)
    (prevPathsByEntity nextPathsByEntity : JsMap JsString SortedAndCompactPaths) :
    Except EngineError (TriggerMap Action) :=
  ((JsSet.empty.addAll prevPathsByEntity.keys).addAll nextPathsByEntity.keys).items.foldlM
    (applyDeltaAt action nextPathsByEntity) triggerMap

structure SchedulerTriggerIndex (Action : Type) where
  triggers : TriggerMap Action
  nonRecursiveTriggers : TriggerMap Action
  actionTriggerEntities : Action → Option (JsSet JsString)

namespace SchedulerTriggerIndex

def empty : SchedulerTriggerIndex Action := ⟨fun _ => none, fun _ => none, fun _ => none⟩

/-- What the cancel of an action's triggers does. -/
def removeAction (index : SchedulerTriggerIndex Action) (action : Action) :
    Except EngineError (SchedulerTriggerIndex Action) := do
  let entities := (index.actionTriggerEntities action).getD .empty
  let (triggers, nonRecursiveTriggers) ← entities.items.foldlM (fun maps entity => do
      let triggers ← removeActionFromTriggerMap maps.1 entity action
      let nonRecursiveTriggers ← removeActionFromTriggerMap maps.2 entity action
      .ok (triggers, nonRecursiveTriggers)) (index.triggers, index.nonRecursiveTriggers)
  .ok ⟨triggers, nonRecursiveTriggers, Function.update index.actionTriggerEntities action none⟩

end SchedulerTriggerIndex

/-- `applyActionReadDelta`, from the log an action had to the one it has now. -/
def applyActionReadDelta (index : SchedulerTriggerIndex Action) (identity : ScopeKeyIdentity)
    (action : Action) (prevLog nextLog : ReactivityLog) :
    Except EngineError (SchedulerTriggerIndex Action) := do
  let prevPathsByEntity ← addressesToPathByEntity prevLog.reads identity
  let nextPathsByEntity ← addressesToPathByEntity nextLog.reads identity
  let prevNonRecursivePathsByEntity ← addressesToPathByEntity prevLog.shallowReads identity
  let nextNonRecursivePathsByEntity ← addressesToPathByEntity nextLog.shallowReads identity
  let triggers ← applyActionReadDeltaToMap index.triggers action prevPathsByEntity
    nextPathsByEntity
  let nonRecursiveTriggers ← applyActionReadDeltaToMap index.nonRecursiveTriggers action
    prevNonRecursivePathsByEntity nextNonRecursivePathsByEntity
  let entities := (JsSet.empty.addAll nextPathsByEntity.keys).addAll
    nextNonRecursivePathsByEntity.keys
  .ok ⟨triggers, nonRecursiveTriggers,
    Function.update index.actionTriggerEntities action (some entities)⟩

/-- The actions whose registered reads a write reaches: of the shallow reads, those at its
path, above it, or one component below it. -/
def collectReadersForWrite (index : SchedulerTriggerIndex Action) (identity : ScopeKeyIdentity)
    (write : IMemorySpaceAddress) : Except EngineError (JsSet Action) := do
  let entity ← entityKey write identity
  let recursive := match index.triggers entity with
    | none => []
    | some triggers => triggers.forEachMatching write.path
  let nonRecursive := match index.nonRecursiveTriggers entity with
    | none => []
    | some triggers => (triggers.forEachMatching write.path).filter fun v =>
        nonRecursiveReadMayOverlapWrite v.1 write.path
  .ok ((recursive ++ nonRecursive).foldl (fun readers v => readers.addAll v.2.items) .empty)

end Scheduler
