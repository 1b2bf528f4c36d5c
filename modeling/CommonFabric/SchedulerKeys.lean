import CommonFabric.Scope
import CommonFabric.JsSet

/-!
# The addresses a scheduler tracks, and their keys

An address names a document in a scope and a path into it. A served run names the scope
instance it read by its key. The dependency keys hold the instance, and the keys of the
writer index hold the scope's name.
-/

namespace Scheduler

structure IMemorySpaceAddress where
  space : JsString
  id : JsString
  scope : Option CellScope
  scopeKey : Option ScopeKey
  path : List JsString
  deriving DecidableEq

def normalizeCellScope (scope : Option CellScope) : CellScope := scope.getD .space

def scopeName : CellScope → JsString
  | .space => "space"
  | .user => "user"
  | .session => "session"

/-- The scope instance an address names, or its scope resolves to. -/
def scopeInstance (address : IMemorySpaceAddress) (identity : ScopeKeyIdentity) :
    Except EngineError ScopeKey :=
  match address.scopeKey with
  | some key => .ok key
  | none => resolveScopeKey address.scope identity

def entityKey (address : IMemorySpaceAddress) (identity : ScopeKeyIdentity) :
    Except EngineError JsString := do
  let key ← scopeInstance address identity
  .ok (.concat [address.space, ("/" : JsString), key, ("/" : JsString), address.id])

def entityNameKey (address : IMemorySpaceAddress) : JsString :=
  .concat [address.space, ("/" : JsString), scopeName (normalizeCellScope address.scope),
    ("/" : JsString), address.id]

/-- Whether one path is a prefix of the other. -/
def arraysOverlap (a b : List JsString) : Bool :=
  if b.length < a.length then b.isPrefixOf a else a.isPrefixOf b

def nonRecursiveReadMayOverlapWrite (readPath writePath : List JsString) : Bool :=
  decide (writePath.length ≤ readPath.length + 1) && arraysOverlap writePath readPath

structure ReactivityLog where
  reads : List IMemorySpaceAddress
  shallowReads : List IMemorySpaceAddress
  deriving DecidableEq

theorem arraysOverlap_iff {a b : List JsString} :
    arraysOverlap a b = true ↔ a <+: b ∨ b <+: a := by
  rw [arraysOverlap]
  split
  case isTrue hlt =>
    rw [List.isPrefixOf_iff_prefix]
    constructor
    · exact .inr
    · rintro (h | h)
      · have := h.length_le
        omega
      · exact h
  case isFalse hle =>
    rw [List.isPrefixOf_iff_prefix]
    constructor
    · exact .inl
    · rintro (h | h)
      · exact h
      · have heq : b = a := h.eq_of_length (by have := h.length_le; omega)
        exact heq ▸ List.prefix_refl _

theorem arraysOverlap_comm (a b : List JsString) : arraysOverlap a b = arraysOverlap b a := by
  rw [Bool.eq_iff_iff, arraysOverlap_iff, arraysOverlap_iff, or_comm]

end Scheduler
