import CommonFabric.ClientCommit
import CommonFabric.JsMap
import CommonFabric.JsonParse

/-!
# The reads a commit carries

A transaction's reads of one document at one basis make a group. The reads of a group that others
stand for are left out of the commit, and on the wire a group of too many is one read of what its
paths have in common.
-/

namespace CommitReads

open JsonText

structure ConfirmedCommitRead where
  id : EntityId
  scope : Option CellScope
  path : ValuePath
  seq : Nat
  nonRecursive : Bool
  deriving DecidableEq

/-- `localSeq` lists every pending layer; the scalar form is the list of one. -/
structure PendingCommitRead where
  id : EntityId
  scope : Option CellScope
  path : ValuePath
  localSeq : List Nat
  basisSeq : Nat
  nonRecursive : Bool
  deriving DecidableEq

/-- The document a read names, and the confirmed seq or the pending layers that it observed it
at. -/
inductive Basis where
  | confirmed (scope : CellScope) (id : EntityId) (seq : Nat)
  | pending (scope : CellScope) (id : EntityId) (localSeq : List Nat) (basisSeq : Nat)
  deriving DecidableEq

/-- A read of either kind; `restate` is `{ ...read, path, nonRecursive }`. -/
class CommitRead (Read : Type) where
  basis : Read → Basis
  path : Read → ValuePath
  nonRecursive : Read → Bool
  restate : Read → ValuePath → Bool → Read
  basis_restate : ∀ read path nonRecursive, basis (restate read path nonRecursive) = basis read
  path_restate : ∀ read p nonRecursive, path (restate read p nonRecursive) = p
  nonRecursive_restate : ∀ read path n, nonRecursive (restate read path n) = n

export CommitRead (basis path nonRecursive restate)

instance : CommitRead ConfirmedCommitRead where
  basis read := .confirmed (normalizeScope read.scope) read.id read.seq
  path := ConfirmedCommitRead.path
  nonRecursive := ConfirmedCommitRead.nonRecursive
  restate read path nonRecursive := { read with path, nonRecursive }
  basis_restate _ _ _ := rfl
  path_restate _ _ _ := rfl
  nonRecursive_restate _ _ _ := rfl

instance : CommitRead PendingCommitRead where
  basis read := .pending (normalizeScope read.scope) read.id read.localSeq read.basisSeq
  path := PendingCommitRead.path
  nonRecursive := PendingCommitRead.nonRecursive
  restate read path nonRecursive := { read with path, nonRecursive }
  basis_restate _ _ _ := rfl
  path_restate _ _ _ := rfl
  nonRecursive_restate _ _ _ := rfl

def scopeText : CellScope → JsString
  | .space => "space"
  | .user => "user"
  | .session => "session"

def seqText (n : Nat) : JsString := ⟨digits n⟩

/-- `localSeqs.join(",")`. -/
def localSeqKey (localSeq : List Nat) : JsString :=
  ⟨[unit ','].intercalate (localSeq.map digits)⟩

/-- `commitReadDependencyKey`, and `dependencyKey` of the compaction. -/
def Basis.key : Basis → JsString
  | .confirmed scope id seq => .concat ["confirmed:", scopeText scope, ":", id, ":", seqText seq]
  | .pending scope id localSeq basisSeq => .concat ["pending:", scopeText scope, ":", id, ":",
      localSeqKey localSeq, ":", seqText basisSeq]

variable {Read : Type} [CommitRead Read]

/-- The reads by dependency key, in the order of their first. -/
def grouped (reads : List Read) : JsMap JsString (List Read) :=
  reads.foldl (fun groups read =>
    groups.set (basis read).key ((groups.get (basis read).key).getD [] ++ [read])) JsMap.empty

/-- A node of a tree of the paths one dependency group's reads name. -/
inductive ReadPathNode (Read : Type) where
  | mk (recursive shallow : Option Read) (children : List (JsString × ReadPathNode Read))

def ReadPathNode.empty : ReadPathNode Read := .mk none none []

/-- A read set down along its path: the first of each kind at a path stays. -/
def ReadPathNode.add (read : Read) : ValuePath → ReadPathNode Read → ReadPathNode Read
  | [], .mk recursive shallow children =>
    if nonRecursive read then .mk recursive (some (shallow.getD read)) children
    else .mk (some (recursive.getD read)) shallow children
  | segment :: rest, .mk recursive shallow children =>
    let child := (JsMap.getEntries segment children).getD .empty
    .mk recursive shallow (JsMap.setEntries segment (add read rest child) children)

def readPathTree (reads : List Read) : ReadPathNode Read :=
  reads.foldl (fun root read => root.add read (path read)) .empty

def isKeyableObjectOrArray : FabricValue → Bool
  | .array _ => true
  | .record _ => true
  | _ => false

def memberCount : FabricValue → Nat
  | .array slots => slots.length
  | .record fields => fields.length
  | _ => 0

/-- The reads of a node: those at it, with what is needed of those below it and how many of its
members they read in full; and whether the node is read in full. -/
def stateNode (observed : Bool) (recursive shallow : Option Read) (below : List Read × Nat)
    (container : Option FabricValue) (recursiveAbove : Bool) : List Read × Bool :=
  match recursive.or shallow with
  | none => (below.1, false)
  | some read =>
    let readInFull := recursive.isSome || observed &&
      (container.isNone || decide (below.2 = (container.map memberCount).getD 0))
    if readInFull && observed && !below.1.isEmpty then
      let shallow := shallow.or
        (if below.1.any nonRecursive then some (restate read (path read) true) else none)
      (shallow.toList ++ if recursiveAbove then [] else [restate read (path read) false], true)
    else
      (below.1 ++ (if recursiveAbove then [] else recursive.toList) ++ shallow.toList, readInFull)

mutual

/-- The reads at and below a node that the commit needs, and whether they read `value` in full. -/
def compact (observed : Bool) : ReadPathNode Read → FabricValue → Bool → List Read × Bool
  | .mk recursive shallow children, value, recursiveAbove =>
    let container := if isKeyableObjectOrArray value then some value else none
    stateNode observed recursive shallow
      (compactChildren observed children container (recursiveAbove || recursive.isSome))
      container recursiveAbove

/-- The reads of the nodes below one, and how many of its members they read in full. -/
def compactChildren (observed : Bool) :
    List (JsString × ReadPathNode Read) → Option FabricValue → Bool → List Read × Nat
  | [], _, _ => ([], 0)
  | (segment, node) :: rest, container, recursiveAbove =>
    let member := container.bind fun container => child container segment
    let here := compact observed node (member.getD .undefined) recursiveAbove
    let others := compactChildren observed rest container recursiveAbove
    (here.1 ++ others.1, (if here.2 && member.isSome then 1 else 0) + others.2)

end

def compactDependencyGroup (reads : List Read) (observed : Option EntityDocument) : List Read :=
  (compact observed.isSome (readPathTree reads)
    ((observed.map EntityDocument.toValue).getD .undefined) false).1

/-- Negative where `left` comes first. -/
def comparePath : ValuePath → ValuePath → Ordering
  | left, right =>
    if left.length ≠ right.length then compare left.length right.length
    else match (left.zip right).find? fun e => e.1 ≠ e.2 with
      | none => .eq
      | some e => if e.1.lt e.2 then .lt else .gt

def compareText (left right : JsString) : Ordering :=
  if left = right then .eq else if left.lt right then .lt else .gt

def compareBasis : Basis → Basis → Ordering
  | .confirmed scope id seq, .confirmed scope' id' seq' =>
    (compareText (scopeText scope) (scopeText scope')).then
      ((compareText id id').then (compare seq seq'))
  | .pending scope id localSeq _, .pending scope' id' localSeq' _ =>
    (compareText (scopeText scope) (scopeText scope')).then
      ((compareText id id').then (compareText (localSeqKey localSeq) (localSeqKey localSeq')))
  | _, _ => .eq

def compareReads (left right : Read) : Ordering :=
  (compareBasis (basis left) (basis right)).then
    (if nonRecursive left ≠ nonRecursive right then if nonRecursive left then .lt else .gt
    else comparePath (path left) (path right))

/-- The reads of a commit that others do not stand for; `observedDocument` is the document that
the reads of a group observed, where it is known. -/
def compactCommitReads (reads : List Read) (observedDocument : Read → Option EntityDocument) :
    List Read :=
  let compacted := (grouped reads).values.flatMap fun group =>
    compactDependencyGroup group (group.head?.bind observedDocument)
  compacted.mergeSort fun left right => compareReads left right ≠ .gt

def MAX_READS_PER_DEPENDENCY_GROUP : Nat := 16

def commonPrefix : ValuePath → ValuePath → ValuePath
  | segment :: left, segment' :: right =>
    if segment = segment' then segment :: commonPrefix left right else []
  | _, _ => []

def commonDocumentPathPrefix (paths : List ValuePath) : ValuePath :=
  paths.foldl commonPrefix (paths.headD [])

def coarsenWideReadGroup (group : List Read) : List Read :=
  if group.length ≤ MAX_READS_PER_DEPENDENCY_GROUP then group
  else match group with
    | [] => []
    | statement :: _ =>
      let shared := commonDocumentPathPrefix (group.map path)
      (if group.any nonRecursive then [restate statement shared true] else []) ++
        [restate statement shared false]

/-- One list of `coarsenCommitReads`. -/
def coarsen (reads : List Read) : List Read :=
  let groups := (grouped reads).values
  if groups.all fun group => group.length ≤ MAX_READS_PER_DEPENDENCY_GROUP then reads
  else groups.flatMap coarsenWideReadGroup

/-- `ClientCommit["reads"]`. -/
structure ReadLists where
  confirmed : List ConfirmedCommitRead
  pending : List PendingCommitRead

def coarsenCommitReads (reads : ReadLists) : ReadLists :=
  ⟨coarsen reads.confirmed, coarsen reads.pending⟩

end CommitReads
