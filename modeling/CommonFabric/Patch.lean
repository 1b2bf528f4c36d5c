import CommonFabric.ValuePath

/-!
# Patches

The nine patch operations and their application to a document. A pointer that
does not parse and an operation that cannot apply are errors, each with the
text the engine gives it. An operation descends along a spine of containers;
`editSpine` is that descent, with or without the creation of what is missing.
-/

/-- One operation of a stored patch list. A hole in `values` or in a splice's
`insert` is read as `undefined`. -/
inductive PatchOp where
  | replace (path : JsString) (value : FabricValue)
  | add (path : JsString) (value : FabricValue)
  | remove (path : JsString)
  | move (source path : JsString)
  | splice (path : JsString) (index remove : Int) (insert : List FabricValue)
  | append (path : JsString) (values : List FabricValue) (createsKey : Bool)
  | addUnique (path : JsString) (values : List FabricValue) (createsKey : Bool)
  | removeByValue (path : JsString) (value : FabricValue)
  | increment (path : JsString) (amount : JsNumber) (createsKey : Bool)
  deriving DecidableEq

inductive PatchError where
  | invalidPointer (message : JsString)
  | missingPath (path : ValuePath)
  | notTraversable (path : ValuePath)
  | rootRemove
  | missingObjectKey (path : ValuePath)
  | moveRoot
  | moveIntoDescendant
  | spliceTarget (path : ValuePath)
  | invalidSplice (path : ValuePath)
  | tailTarget (op : JsString) (path : ValuePath)
  | incrementRoot
  | incrementAmount (path : ValuePath)
  | incrementTarget (path : ValuePath)
  | invalidIndex (segment : JsString)
  | indexOutOfBounds (segment : JsString)
  | rootNotDocument
  /-- A key that is no index, assigned on an array: JavaScript makes it a named
  property, which no stored value can hold. -/
  | namedElement (path : ValuePath)
  deriving DecidableEq

def PatchError.message : PatchError → JsString
  | .invalidPointer text => text
  | .missingPath path => .append "missing path " (Pointer.encodePointer path)
  | .notTraversable path => .append "path is not traversable at " (Pointer.encodePointer path)
  | .rootRemove => "root remove must be represented as a delete operation"
  | .missingObjectKey path => .append "missing object key at " (Pointer.encodePointer path)
  | .moveRoot => "cannot move the root value"
  | .moveIntoDescendant => "cannot move a value into its own descendant"
  | .spliceTarget path =>
    .append "splice target is not an array at " (Pointer.encodePointer path)
  | .invalidSplice path => .append "invalid splice at " (Pointer.encodePointer path)
  | .tailTarget op path =>
    .append op (.append " target is not an array at " (Pointer.encodePointer path))
  | .incrementRoot => "increment requires a non-root path"
  | .incrementAmount path =>
    .append "increment requires a finite non-zero amount at " (Pointer.encodePointer path)
  | .incrementTarget path =>
    .append "increment target is not a number at " (Pointer.encodePointer path)
  | .invalidIndex segment => .append "invalid array index: " segment
  | .indexOutOfBounds segment => .append "array index out of bounds: " segment
  | .rootNotDocument => "patched root is not an entity document"
  | .namedElement path => .append "no array element at " (Pointer.encodePointer path)

namespace Patch

abbrev Slots := List (Option FabricValue)
abbrev Result := Except PatchError FabricValue

def isContainer : FabricValue → Bool
  | .array _ => true
  | .record _ => true
  | _ => false

/-- `Object.hasOwn` and the read that follows it, of a container: an array also
owns its `length`. -/
def ownSlot (v : FabricValue) (key : JsString) : Option FabricValue :=
  match v with
  | .array slots =>
    if key = "length" then some (.number (.ofNat slots.length)) else child v key
  | _ => child v key

def parseArrayIndex (segment : JsString) : Except PatchError Nat :=
  match arrayIndex? segment with
  | none => .error (.invalidIndex segment)
  | some i => if maxArrayIndex < i then .error (.indexOutOfBounds segment) else .ok i

def parseArrayInsertIndex (segment : JsString) (length : Nat) : Except PatchError Nat := do
  let i ← parseArrayIndex segment
  if length < i then .error (.indexOutOfBounds segment) else .ok i

def requireExistingArrayIndex (slots : Slots) (segment : JsString) (path : ValuePath) :
    Except PatchError Nat := do
  let i ← parseArrayIndex segment
  if (slots[i]?.join).isSome then .ok i else .error (.missingPath path)

/-- `array[i] = v`, which past the end leaves holes. -/
def setSlot (slots : Slots) (i : Nat) (v : FabricValue) : Slots :=
  if i < slots.length then slots.set i (some v)
  else slots ++ List.replicate (i - slots.length) none ++ [some v]

/-- `container[key] = v`. -/
def setChild (full : ValuePath) (v : FabricValue) (key : JsString) (c : FabricValue) : Result :=
  match v with
  | .array slots =>
    match parseArrayIndex key with
    | .ok i => .ok (.array (setSlot slots i c))
    | .error _ => .error (.namedElement full)
  | .record fields => .ok (.record (Fields.set fields key c))
  | _ => .error (.notTraversable full)

def createMissingContainer (nextKey : JsString) : FabricValue :=
  if missingContainerIsArray nextKey then .array [] else .record []

/-- Builds the containers of a missing spine around what `f` makes of the last
of them, which is shaped for `nextKey`. -/
def createSpine (full : ValuePath) (nextKey : JsString) (f : FabricValue → Result) :
    ValuePath → Result
  | [] => f (createMissingContainer nextKey)
  | key :: rest => do
    let c ← createSpine full nextKey f rest
    setChild full (createMissingContainer key) key c

/-- Descends along the spine and puts what `f` makes of the container at its end
in that container's place. `create` holds the key the missing part of the spine
is created for, when it is to be created. -/
def editSpine (full : ValuePath) (create : Option JsString) (f : FabricValue → Result) :
    FabricValue → ValuePath → Result
  | v, [] => if isContainer v then f v else .error (.notTraversable full)
  | v, key :: rest =>
    match ownSlot v key with
    | some c => do
      let c' ← editSpine full create f c rest
      setChild full v key c'
    | none =>
      if isContainer v then
        match create with
        | none => .error (.missingPath full)
        | some nextKey => do
          let c ← createSpine full nextKey f rest
          setChild full v key c
      else .error (.notTraversable full)

/-- The part of a spine past a missing object key: no segment of it may address
into a container that would be created as an array. -/
def validateFreshSpine (full : ValuePath) (spine : ValuePath) : Except PatchError Unit :=
  if spine.any missingContainerIsArray then .error (.missingPath full) else .ok ()

/-- The read-only check of the spine of an operation that creates containers: a
present array must hold every index traversed through it. -/
def validateAddSpine (full : ValuePath) : FabricValue → ValuePath → Except PatchError Unit
  | _, [] => .ok ()
  | .array slots, key :: rest => do
    let i ← parseArrayIndex key
    match slots[i]?.join with
    | some c => validateAddSpine full c rest
    | none => .error (.missingPath full)
  | .record fields, key :: rest =>
    match Fields.get? fields key with
    | some c => validateAddSpine full c rest
    | none => validateFreshSpine full rest
  | _, _ :: _ => .error (.notTraversable full)

def lastKey (path : ValuePath) : JsString := path.getLastD ""

def replaceIn (path : ValuePath) (value : FabricValue) : FabricValue → Result
  | .array slots => do
    let i ← requireExistingArrayIndex slots (lastKey path) path
    .ok (.array (slots.set i (some value)))
  | .record fields => .ok (.record (Fields.set fields (lastKey path) value))
  | _ => .error (.notTraversable path)

def replaceAtPath (root : FabricValue) (path : ValuePath) (value : FabricValue) : Result :=
  if path = [] then .ok value else editSpine path none (replaceIn path value) root path.dropLast

def addIn (path : ValuePath) (value : FabricValue) : FabricValue → Result
  | .array slots =>
    if lastKey path = appendMarker then .ok (.array (slots ++ [some value]))
    else do
      let i ← parseArrayInsertIndex (lastKey path) slots.length
      .ok (.array (slots.take i ++ some value :: slots.drop i))
  | .record fields => .ok (.record (Fields.set fields (lastKey path) value))
  | _ => .error (.notTraversable path)

def addAtPath (root : FabricValue) (path : ValuePath) (value : FabricValue) : Result :=
  if path = [] then .ok value
  else do
    validateAddSpine path root path.dropLast
    editSpine path (some (lastKey path)) (addIn path value) root path.dropLast

def removeIn (path : ValuePath) : FabricValue → Result
  | .array slots => do
    let i ← requireExistingArrayIndex slots (lastKey path) path
    .ok (.array (slots.eraseIdx i))
  | .record fields =>
    if (Fields.get? fields (lastKey path)).isSome then
      .ok (.record (Fields.erase fields (lastKey path)))
    else .error (.missingObjectKey path)
  | _ => .error (.notTraversable path)

def removeAtPath (root : FabricValue) (path : ValuePath) : Result :=
  if path = [] then .error .rootRemove
  else editSpine path none (removeIn path) root path.dropLast

def getAtPath (full : ValuePath) : FabricValue → ValuePath → Result
  | v, [] => .ok v
  | .array slots, key :: rest => do
    let i ← parseArrayIndex key
    match slots[i]?.join with
    | some c => getAtPath full c rest
    | none => .error (.missingPath full)
  | .record fields, key :: rest =>
    match Fields.get? fields key with
    | some c => getAtPath full c rest
    | none => .error (.missingPath full)
  | _, _ :: _ => .error (.missingPath full)

def isStrictPrefixPath (pre path : ValuePath) : Bool :=
  decide (pre.length < path.length) && isPrefixPath pre path

def moveValue (root : FabricValue) (source path : ValuePath) : Result :=
  if source = [] then .error .moveRoot
  else if isStrictPrefixPath source path then .error .moveIntoDescendant
  else do
    let extracted ← getAtPath source root source
    let removed ← removeAtPath root source
    addAtPath removed path extracted

def spliceIn (path : ValuePath) (index remove : Int) (insert : List FabricValue) :
    FabricValue → Result
  | .array slots =>
    if index < 0 ∨ remove < 0 ∨ (slots.length : Int) < index then .error (.invalidSplice path)
    else .ok (.array (slots.take index.toNat ++ insert.map some ++
      slots.drop (index.toNat + remove.toNat)))
  | _ => .error (.spliceTarget path)

def spliceAtPath (root : FabricValue) (path : ValuePath) (index remove : Int)
    (insert : List FabricValue) : Result :=
  editSpine path none (spliceIn path index remove insert) root path

/-- Puts a fresh array, as a tail operation extends it, in a slot that holds
`undefined`. -/
def fillUndefined (path : ValuePath) (extend : Slots → Slots) : FabricValue → Result :=
  replaceIn path (.array (extend []))

def extendIn (path : ValuePath) (op : JsString) (extend : Slots → Slots) : FabricValue → Result
  | .array slots => .ok (.array (extend slots))
  | _ => .error (.tailTarget op path)

/-- A tail operation: the array at the path is extended, and is created where the
path is missing or holds `undefined`. -/
def tailAtPath (root : FabricValue) (path : ValuePath) (op : JsString)
    (extend : Slots → Slots) : Result := do
  validateAddSpine path root path.dropLast
  if path ≠ [] ∧ valueAt root path = some .undefined then
    editSpine path none (fillUndefined path extend) root path.dropLast
  else
    editSpine path (some "0") (extendIn path op extend) root path

def appendAtPath (root : FabricValue) (path : ValuePath) (values : List FabricValue) : Result :=
  tailAtPath root path "append" fun slots => slots ++ values.map some

/-- The values with no equal before them, in order. -/
def distinct : List FabricValue → List FabricValue
  | [] => []
  | v :: rest => v :: (distinct rest).filter fun w => !valueEqual v w

def addUniqueAtPath (root : FabricValue) (path : ValuePath) (values : List FabricValue) :
    Result :=
  tailAtPath root path "add-unique" fun slots =>
    slots ++ ((distinct values).filter fun v => !slots.any (· == some v)).map some

def removeByValueIn (path : ValuePath) (value : FabricValue) : FabricValue → Result
  | .array slots => .ok (.array (slots.filter fun s => !valueEqual (s.getD .undefined) value))
  | _ => .error (.notTraversable path)

def removeByValueAtPath (root : FabricValue) (path : ValuePath) (value : FabricValue) : Result :=
  match valueAt root path with
  | some (.array slots) =>
    if slots.any (· == some value) then editSpine path none (removeByValueIn path value) root path
    else .ok root
  | _ => .ok root

def incrementIn (path : ValuePath) (next : JsNumber) : FabricValue → Result
  | .array slots => do
    let i ← parseArrayInsertIndex (lastKey path) slots.length
    .ok (.array (setSlot slots i (.number next)))
  | .record fields => .ok (.record (Fields.set fields (lastKey path) (.number next)))
  | _ => .error (.notTraversable path)

def incrementFrom (root : FabricValue) (path : ValuePath) (current amount : JsNumber) : Result := do
  validateAddSpine path root path.dropLast
  editSpine path (some (lastKey path)) (incrementIn path (current.add amount)) root path.dropLast

def incrementAtPath (root : FabricValue) (path : ValuePath) (amount : JsNumber) : Result :=
  if path = [] then .error .incrementRoot
  else if !amount.isFinite || amount.isZero then .error (.incrementAmount path)
  else match (valueAt root path).getD .undefined with
    | .number n => incrementFrom root path n amount
    | .undefined => incrementFrom root path (.finite 0) amount
    | _ => .error (.incrementTarget path)

end Patch

def parsePointer (path : JsString) : Except PatchError ValuePath :=
  match Pointer.parsePointer path with
  | .ok p => .ok p
  | .error message => .error (.invalidPointer message)

open Patch in
/-- `patchOpDescriptors[op.op].apply`. -/
def applyOp (state : FabricValue) : PatchOp → Except PatchError FabricValue
  | .replace path value => do replaceAtPath state (← parsePointer path) value
  | .add path value => do addAtPath state (← parsePointer path) value
  | .remove path => do removeAtPath state (← parsePointer path)
  | .move source path => do moveValue state (← parsePointer source) (← parsePointer path)
  | .splice path index remove insert => do
    spliceAtPath state (← parsePointer path) index remove insert
  | .append path values _ => do appendAtPath state (← parsePointer path) values
  | .addUnique path values _ => do addUniqueAtPath state (← parsePointer path) values
  | .removeByValue path value => do removeByValueAtPath state (← parsePointer path) value
  | .increment path amount _ => do incrementAtPath state (← parsePointer path) amount

def applyPatch (state : FabricValue) (ops : List PatchOp) : Except PatchError FabricValue :=
  ops.foldlM applyOp state

/-- A document's envelope: a plain object, by its members. -/
structure EntityDocument where
  fields : List (JsString × FabricValue)
  deriving DecidableEq

namespace EntityDocument

def toValue (d : EntityDocument) : FabricValue := .record d.fields

/-- The envelope's `value` member. -/
def value? (d : EntityDocument) : Option FabricValue := Fields.get? d.fields "value"

end EntityDocument

/-- `isEntityDocument`, with the document it finds. -/
def entityDocument? : FabricValue → Option EntityDocument
  | .record fields => some ⟨fields⟩
  | _ => none

def emptyEntityDocument : EntityDocument := ⟨[]⟩

/-- Applies a patch list to a possibly absent document. -/
def applyPatchToDocument (base : Option EntityDocument) (ops : List PatchOp) :
    Except PatchError EntityDocument := do
  let patched ← applyPatch (base.getD emptyEntityDocument).toValue ops
  match entityDocument? patched with
  | some d => .ok d
  | none => .error .rootNotDocument

namespace PatchOp

/-- The values of the operation's pointer fields. -/
def pointers : PatchOp → List JsString
  | .replace path _ => [path]
  | .add path _ => [path]
  | .remove path => [path]
  | .move source path => [source, path]
  | .splice path _ _ _ => [path]
  | .append path _ _ => [path]
  | .addUnique path _ _ => [path]
  | .removeByValue path _ => [path]
  | .increment path _ _ => [path]

/-- The kinds that add, drop or relocate a child key on every apply. -/
def isStructural : PatchOp → Bool
  | .add .. => true
  | .remove .. => true
  | .move .. => true
  | _ => false

def createsKey : PatchOp → Bool
  | .append _ _ c => c
  | .addUnique _ _ c => c
  | .increment _ _ c => c
  | _ => false

/-- `patchOpChangesParentKeySet`. -/
def changesParentKeySet (op : PatchOp) : Bool := op.isStructural || op.createsKey

end PatchOp

/-- The exact changed paths of a patch operation. -/
def touchedLeafPathsForPatch (op : PatchOp) : Except PatchError (List ValuePath) :=
  op.pointers.mapM parsePointer

/-- The paths a shape-only read is matched against: those of an operation that
changes its container's key set carry the container's path too. -/
def touchedPathsForPatch (op : PatchOp) (leaves : List ValuePath) : List ValuePath :=
  if op.changesParentKeySet then leaves ++ leaves.map parentPath else leaves
