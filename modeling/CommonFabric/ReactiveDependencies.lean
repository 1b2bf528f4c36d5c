import CommonFabric.LinkSchemas
import CommonFabric.TriggerIndex
import Mathlib.Data.List.Sort

/-!
# Which reads a change reaches

A change is a document before and after it. The paths of all readers are walked in one
descending order, over a stack of the values along the last path, and a reader is woken at
the first of its paths where the two documents differ. A step of the walk reads a property
of a container, which finds what the container inherits where it has no such member of
its own.
-/

namespace Scheduler

/-- What reading a property gives: a value of the document, or something that documents do
not hold, a member that a container inherits. -/
inductive Property (Member : Type) where
  | value (v : FabricValue)
  | member (m : Member)
  deriving DecidableEq

/-- The accessor through which a host may give out the prototype of an object. -/
def PROTO : JsString := "__proto__"

/-- The host of the documents: the members that records and arrays inherit, and the classes
of instances with what their accessors and prototypes give. A host may have removed the
accessor `__proto__`; where it has not, the prototypes read through it are objects. -/
structure Host where
  Member : Type
  decEqMember : DecidableEq Member
  isFunction : Member → Bool
  /-- `isKeyable` and `isPlainContainer` of what is no value of a document. -/
  memberKeyable : Member → Bool
  memberPlain : Member → Bool
  getMember : Member → JsString → Except EngineError (Property Member)
  objectPrototype : JsString → Option Member
  arrayPrototype : JsString → Option Member
  /-- Of the codec tag: the class is a `FabricInstance`, not a `FabricPrimitive`. -/
  isFabricInstance : JsString → Bool
  /-- A property of an instance, by its codec tag and state. -/
  getInstance : JsString → FabricValue → JsString → Except EngineError (Property Member)
  /-- `valueEqual` of two objects that are not both values of documents. -/
  objectsEqual : Property Member → Property Member → Except EngineError Bool
  /-- The key sets of two plain containers that are not both values of documents. -/
  keySetsEqual : Property Member → Property Member → Bool
  function_not_keyable : ∀ m, isFunction m = true → memberKeyable m = false
  function_not_plain : ∀ m, isFunction m = true → memberPlain m = false
  objectPrototype_function : ∀ key m, objectPrototype key = some m →
    isFunction m = true ∨ key = PROTO
  arrayPrototype_function : ∀ key m, arrayPrototype key = some m →
    isFunction m = true ∨ key = PROTO
  getInstance_function : ∀ tag state key m, getInstance tag state key = .ok (.member m) →
    isFunction m = true ∨ key = PROTO

instance (host : Host) : DecidableEq host.Member := host.decEqMember

namespace Host

/-- The names that `Object.prototype` holds, without `__proto__`. -/
def objectPrototypeNames : List JsString :=
  ["constructor", "hasOwnProperty", "isPrototypeOf", "propertyIsEnumerable", "toLocaleString",
    "toString", "valueOf", "__defineGetter__", "__defineSetter__", "__lookupGetter__",
    "__lookupSetter__"]

/-- The names that `Array.prototype` holds, `length` left out: every array has its own. -/
def arrayPrototypeNames : List JsString :=
  ["at", "concat", "constructor", "copyWithin", "entries", "every", "fill", "filter", "find",
    "findIndex", "findLast", "findLastIndex", "flat", "flatMap", "forEach", "includes", "indexOf",
    "join", "keys", "lastIndexOf", "map", "pop", "push", "reduce", "reduceRight", "reverse",
    "shift", "slice", "some", "sort", "splice", "toLocaleString", "toReversed", "toSorted",
    "toSpliced", "toString", "unshift", "values", "with"]

/-- The function that an object or an array inherits under a name. -/
def inheritedFunction (ofArray : Bool) (key : JsString) : Option (Bool × JsString) :=
  if ofArray && key ∈ arrayPrototypeNames then some (true, key)
  else if key ∈ objectPrototypeNames then some (false, key)
  else none

/-- A host that has removed the accessor `__proto__`: all that is inherited is functions, each
known by its prototype and name. No instance exposes a property. -/
def withoutProto (fabricInstances : List JsString) : Host where
  Member := Bool × JsString
  decEqMember := inferInstance
  isFunction _ := true
  memberKeyable _ := false
  memberPlain _ := false
  getMember _ _ := .ok (.value .undefined)
  objectPrototype := inheritedFunction false
  arrayPrototype := inheritedFunction true
  isFabricInstance tag := tag ∈ fabricInstances
  getInstance _ _ _ := .ok (.value .undefined)
  objectsEqual _ _ := .ok false
  keySetsEqual _ _ := false
  function_not_keyable _ _ := rfl
  function_not_plain _ _ := rfl
  objectPrototype_function _ _ _ := .inl rfl
  arrayPrototype_function _ _ _ := .inl rfl
  getInstance_function _ _ _ _ _ := .inl rfl

end Host

def LENGTH : JsString := "length"

/-- A non-`null` object, an array included. -/
def isObjectOrArray : FabricValue → Bool
  | .array _ | .record _ | .special _ _ => true
  | _ => false

def isPlainContainer : FabricValue → Bool
  | .array _ | .record _ => true
  | _ => false

def isLegacyLinkEnvelope : FabricValue → Bool
  | .record [(key, .record inner)] => key = "/" && (Fields.get? inner LINK_V1_TAG).isSome
  | _ => false

/-- `isLinkRef`, in the legacy or the modern representation of cells. -/
def isPrimitiveCellLink (modern : Bool) (v : FabricValue) : Bool :=
  if modern then
    match v with
    | .special tag _ => tag = FABRIC_LINK_TAG
    | _ => false
  else isLegacyLinkEnvelope v

/-- Whether each slot that is no hole in one array is none in the other. -/
def slotsWithin (xs ys : List (Option FabricValue)) : Bool :=
  xs.zipIdx.all fun x => x.1.isNone || (ys[x.2]?.join).isSome

/-- The comparison that `shallowEqual` makes of two plain containers. -/
def keysEqual : FabricValue → FabricValue → Bool
  | .record f, .record g => f.length = g.length && f.all fun e => (Fields.get? g e.1).isSome
  | .array xs, .array ys =>
    xs.countP Option.isSome = ys.countP Option.isSome && xs.length = ys.length && slotsWithin xs ys
  | _, _ => false

namespace Host

variable (host : Host)

/-- Whether the descent may address a value by key. -/
def keyable : Property host.Member → Bool
  | .value (.array _) | .value (.record _) => true
  | .value (.special tag _) => host.isFabricInstance tag
  | .value _ => false
  | .member m => host.memberKeyable m

/-- A member of an own list, or what is inherited, or nothing. -/
def ownOr (own : Option FabricValue) (inherited : Option host.Member) : Property host.Member :=
  match own, inherited with
  | some v, _ => .value v
  | none, some m => .member m
  | none, none => .value .undefined

/-- `(value as Keyable)[key]`. -/
def get : Property host.Member → JsString → Except EngineError (Property host.Member)
  | .value (.record fields), key => .ok (host.ownOr (Fields.get? fields key) (host.objectPrototype key))
  | .value (.array slots), key =>
    if key = LENGTH then .ok (.value (.number (.ofNat slots.length)))
    else .ok (host.ownOr (child (.array slots) key) (host.arrayPrototype key))
  | .value (.special tag state), key => host.getInstance tag state key
  | .value _, _ => .ok (.value .undefined)
  | .member m, key => host.getMember m key

def cannotCompareFunction : EngineError := .error "Cannot compare a function value."

/-- `valueEqual`. -/
def valueEqual : Property host.Member → Property host.Member → Except EngineError Bool
  | .value a, .value b => .ok (decide (a = b))
  | .value a, .member m =>
    if isObjectOrArray a then
      if host.isFunction m then .error cannotCompareFunction
      else host.objectsEqual (.value a) (.member m)
    else .ok false
  | .member m, .value b =>
    if host.isFunction m then .error cannotCompareFunction
    else if isObjectOrArray b then host.objectsEqual (.member m) (.value b) else .ok false
  | .member m, .member m' =>
    if m = m' then .ok true
    else if host.isFunction m || host.isFunction m' then .error cannotCompareFunction
    else host.objectsEqual (.member m) (.member m')

def isLink (modern : Bool) : Property host.Member → Bool
  | .value v => isPrimitiveCellLink modern v
  | .member _ => false

def plain : Property host.Member → Bool
  | .value v => isPlainContainer v
  | .member m => host.memberPlain m

/-- Whether the shallow structures of two values are the same. -/
def shallowEqual (modern : Bool) (before after : Property host.Member) : Except EngineError Bool :=
  if host.isLink modern before || host.isLink modern after then host.valueEqual before after
  else if host.plain before && host.plain after then
    match before, after with
    | .value a, .value b => .ok (keysEqual a b)
    | before, after => .ok (host.keySetsEqual before after)
  else host.valueEqual before after

end Host

/-- Orders two paths, a path ahead of every path it is a prefix of. -/
def comparePaths : List JsString → List JsString → Int
  | a :: as, b :: bs => if a = b then comparePaths as bs else if a.lt b then -1 else 1
  | as, bs => (as.length : Int) - bs.length

def commonPrefixLength : List JsString → List JsString → Nat
  | a :: as, b :: bs => if a = b then commonPrefixLength as bs + 1 else 0
  | _, _ => 0

/-- The values along the current path in one of the two documents, and the last of them
that is key-able, by position. What a longer path left further on stays. -/
structure Descent (host : Host) where
  values : Nat → Property host.Member
  lastObject : Int

namespace Descent

variable {host : Host}

def start (v : FabricValue) : Descent host :=
  ⟨fun i => if i = 0 then .value v else .value .undefined, if host.keyable (.value v) then 0 else -1⟩

/-- One component of the target path, at position `i`. -/
def step (d : Descent host) (component : JsString) (i : Nat) : Except EngineError (Descent host) :=
  if (i : Int) ≤ d.lastObject then do
    let x ← host.get (d.values i) component
    .ok ⟨Function.update d.values (i + 1) x, if host.keyable x then i + 1 else i⟩
  else .ok d

def canReach (d : Descent host) (path : List JsString) : Bool :=
  (path.length : Int) ≤ d.lastObject + 1

end Descent

structure DetermineTriggeredActionsOptions where
  nonRecursive : Bool

/-- What the comparisons run under: the host, the representation of cells in force, and the
options of the call. -/
structure Comparison where
  host : Host
  modern : Bool
  options : DetermineTriggeredActionsOptions

namespace Comparison

variable (c : Comparison)

def same (before after : Property c.host.Member) : Except EngineError Bool :=
  if c.options.nonRecursive then c.host.shallowEqual c.modern before after
  else c.host.valueEqual before after

/-- The traversal state. -/
structure Walk where
  currentPath : List JsString
  before : Descent c.host
  after : Descent c.host

variable {c}

def Walk.start (before after : FabricValue) : Walk c := ⟨[], .start before, .start after⟩

/-- The loop from the end of the common prefix to the end of the target path. -/
def Walk.descend (w : Walk c) (targetPath : List JsString) : Except EngineError (Walk c) := do
  let overlap := commonPrefixLength targetPath w.currentPath
  let (before, after) ← (targetPath.zipIdx.drop overlap).foldlM
    (fun (s : Descent c.host × Descent c.host) (component, i) => do
      let before ← s.1.step component i
      let after ← s.2.step component i
      .ok (before, after)) (w.before, w.after)
  .ok ⟨targetPath, before, after⟩

def Walk.hasChanged (w : Walk c) : Except EngineError Bool :=
  let beforeCanReach := w.before.canReach w.currentPath
  let afterCanReach := w.after.canReach w.currentPath
  if beforeCanReach && afterCanReach then do
    let same ← c.same (w.before.values w.currentPath.length) (w.after.values w.currentPath.length)
    .ok (!same)
  else if beforeCanReach != afterCanReach then .ok true
  else .ok (w.before.lastObject ≠ w.after.lastObject)

end Comparison

/-- A subscriber in the queue: the path it comes to next, and those after. -/
structure Subscriber (Action : Type) where
  action : Action
  path : List JsString
  later : List (List JsString)

structure ActionTrigger (Action : Type) where
  action : Action
  path : List JsString

variable {Action : Type}

namespace Subscriber

/-- The subscriber at its next path, if it has one. -/
def next (s : Subscriber Action) : Option (Subscriber Action) :=
  match s.later with
  | [] => none
  | path :: later => some ⟨s.action, path, later⟩

/-- Queue up a subscriber, keeping the queue sorted by path. -/
def insert (s : Subscriber Action) : List (Subscriber Action) → List (Subscriber Action)
  | [] => [s]
  | t :: rest => if 0 ≤ comparePaths s.path t.path then s :: t :: rest else t :: insert s rest

def requeue (subscribers : List (Subscriber Action)) (s : Subscriber Action) :
    List (Subscriber Action) :=
  match s.next with
  | some s => insert s subscribers
  | none => subscribers

/-- The paths that the queue still holds. -/
def pending (subscribers : List (Subscriber Action)) : Nat :=
  (subscribers.map fun s => s.later.length + 1).sum

theorem pending_insert (s : Subscriber Action) (subscribers : List (Subscriber Action)) :
    pending (insert s subscribers) = pending (s :: subscribers) := by
  induction subscribers with
  | nil => rfl
  | cons t rest ih =>
    rw [insert]
    split
    · rfl
    · simp only [pending, List.map_cons, List.sum_cons] at ih ⊢
      omega

theorem pending_requeue (subscribers : List (Subscriber Action)) (s : Subscriber Action) :
    pending (requeue subscribers s) ≤ pending subscribers + s.later.length := by
  rw [requeue, next]
  cases s.later with
  | nil => exact Nat.le_add_right _ _
  | cons path later =>
    have h := pending_insert ⟨s.action, path, later⟩ subscribers
    simp only [pending, List.map_cons, List.sum_cons, List.length_cons] at h ⊢
    omega

theorem pending_foldl_requeue (current subscribers : List (Subscriber Action)) :
    pending (current.foldl requeue subscribers) + current.length ≤
      pending subscribers + pending current := by
  induction current generalizing subscribers with
  | nil => exact Nat.le_add_right _ _
  | cons s current ih =>
    have hs := pending_requeue subscribers s
    have hrest := ih (requeue subscribers s)
    simp only [List.foldl_cons, List.length_cons, pending, List.map_cons, List.sum_cons] at *
    omega

theorem pending_append (xs ys : List (Subscriber Action)) :
    pending (xs ++ ys) = pending xs + pending ys := by
  simp [pending]

end Subscriber

open Comparison Subscriber

/-- The queue: the subscribers with the first one's path are pulled in together, and those
of them whose values did not change are queued again at their next paths. -/
def walkSubscribers {c : Comparison} (w : Walk c) :
    List (Subscriber Action) → Except EngineError (List (ActionTrigger Action))
  | [] => .ok []
  | s :: subscribers => do
    let targetPath := s.path
    let current := s :: subscribers.takeWhile fun t => t.path = targetPath
    let rest := subscribers.dropWhile fun t => t.path = targetPath
    let w ← w.descend targetPath
    let hasChanged ← w.hasChanged
    if hasChanged then do
      let triggered ← walkSubscribers w rest
      .ok (current.map (fun t => ⟨t.action, targetPath⟩) ++ triggered)
    else walkSubscribers w (current.foldl requeue rest)
  termination_by subscribers => pending subscribers
  decreasing_by
    all_goals
      have hsplit := List.takeWhile_append_dropWhile (p := fun t => decide (t.path = s.path)) (l := subscribers)
      have hsum := congrArg pending hsplit
      rw [pending_append] at hsum
    · simp only [pending, List.map_cons, List.sum_cons] at *
      omega
    · have hfold := pending_foldl_requeue (s :: subscribers.takeWhile fun t => t.path = s.path)
        (subscribers.dropWhile fun t => t.path = s.path)
      simp only [pending, List.map_cons, List.sum_cons, List.length_cons] at *
      omega

/-- The paths of a reader that a change at `startPath` can affect, the last one first. -/
def candidates (startPath : List JsString) (paths : SortedAndCompactPaths) :
    List (List JsString) :=
  if 0 < startPath.length then paths.reverse.filter fun path => arraysOverlap path startPath
  else paths.reverse

def subscriberOf (entry : Action × List (List JsString)) : Except EngineError (Subscriber Action) :=
  match entry.2 with
  | [] => .error (.error "Cannot read properties of undefined (reading 'length')")
  | path :: later => .ok ⟨entry.1, path, later⟩

/-- Determines the actions that are triggered based on the changes to the data. -/
def determineActionTriggers (c : Comparison) (dependencies : JsMap Action SortedAndCompactPaths)
    (before after : FabricValue) (startPath : List JsString) :
    Except EngineError (List (ActionTrigger Action)) := do
  let entries := dependencies.entries.map fun e => (e.1, candidates startPath e.2)
  let entries := if 0 < startPath.length then entries.filter fun e => 0 < e.2.length else entries
  let subscribers ← entries.mapM subscriberOf
  let subscribers := subscribers.insertionSort fun s t => comparePaths t.path s.path ≤ 0
  walkSubscribers (Walk.start before after : Walk c) subscribers

end Scheduler
