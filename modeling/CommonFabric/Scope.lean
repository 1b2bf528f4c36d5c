import CommonFabric.Patch

/-!
# Scopes, their keys, and the errors of the engine

A scope key names one instance of a scope: the space's, a user's or a
session's. Its segments are percent-encoded, so that a colon splits them
exactly. The errors are those the engine throws, by class, with their texts.
-/

abbrev BranchName := JsString
abbrev EntityId := JsString
abbrev SessionId := JsString
abbrev ScopeKey := JsString

def DEFAULT_BRANCH : BranchName := ""
def DEFAULT_SCOPE_KEY : ScopeKey := "space"

inductive CellScope where
  | space | user | session
  deriving DecidableEq, Repr

def DEFAULT_SCOPE : CellScope := .space

def normalizeScope (scope : Option CellScope) : CellScope := scope.getD DEFAULT_SCOPE

/-- One stale confirmed read: the first of its document instance. -/
structure ConfirmedReadConflict where
  of_ : EntityId
  scope : CellScope
  branch : Option BranchName
  seq : Nat
  conflictSeq : Nat
  deriving DecidableEq

inductive EngineError where
  | error (message : JsString)
  | uri
  | protocol (message : JsString)
  | unsupportedOpCodec (message : JsString)
  | opFieldBaselineMismatch (message : JsString)
  /-- A baseline mismatch that names the document instance it is about. -/
  | staleOperationBaseline (doc : JsString)
  | opCursorMismatch (message : JsString)
  | opHistoryUnavailable (message : JsString)
  | opSubmissionMismatch (message : JsString)
  | opFieldWriteConflict (message : JsString)
  | opCodec (message : JsString)
  | eventAppendDuplicate (message : JsString)
  | derivedAclDocumentWrite (space : JsString) (opIndex : Nat)
  /-- A `ConflictError`; only a staleness refusal lists conflicts. -/
  | conflict (message : JsString) (conflicts : List ConfirmedReadConflict)
  | entityValueHashConflict (id : EntityId)
  | preconditionFailed (precondition message : JsString)
  | waveCommitConflict (conflictedDocs : List JsString)
  /-- Each stale handler read: its contribution, its index and the seq it conflicts with. -/
  | waveStaleRead (staleReads : List (Nat × Nat × Nat))
  | wavePrecondition (failedPreconditions : List Nat) (detail : JsString)
  | patch (e : PatchError)
  /-- A `UNIQUE` constraint of a table. -/
  | constraint (table : JsString)
  deriving DecidableEq

namespace EngineError

/-- `ConflictError.conflictSeq`, which the first listed conflict gives. -/
def conflictSeq : EngineError → Option Nat
  | .conflict _ (c :: _) => some c.conflictSeq
  | _ => none

end EngineError

/-- A check that refuses with `e` unless `c` holds. -/
def require (c : Bool) (e : EngineError) : Except EngineError Unit :=
  if c then .ok () else .error e

@[simp] theorem require_ok_iff {c : Bool} {e : EngineError} {u : Unit} :
    require c e = .ok u ↔ c = true := by
  cases c <;> simp [require]

/-- A patch application as the engine runs it. -/
def liftPatch {α : Type} : Except PatchError α → Except EngineError α
  | .ok a => .ok a
  | .error e => .error (.patch e)

@[simp] theorem liftPatch_ok_iff {α : Type} {x : Except PatchError α} {a : α} :
    liftPatch x = .ok a ↔ x = .ok a := by
  cases x <;> simp [liftPatch]

namespace ScopeKey

def hexDigit (n : UInt8) : UInt16 := if n < 10 then 48 + n.toUInt16 else 55 + n.toUInt16

def percent (b : UInt8) : List UInt16 := [37, hexDigit (b / 16), hexDigit (b % 16)]

/-- The code units `encodeURIComponent` leaves alone: letters, digits and `-_.!~*'()`. -/
def isUnreserved (u : UInt16) : Bool :=
  (65 ≤ u && u ≤ 90) || (97 ≤ u && u ≤ 122) || (48 ≤ u && u ≤ 57) ||
    [45, 95, 46, 33, 126, 42, 39, 40, 41].contains u

def utf8 (c : Nat) : List UInt8 :=
  if c < 0x80 then [c.toUInt8]
  else if c < 0x800 then [(0xC0 + c / 0x40).toUInt8, (0x80 + c % 0x40).toUInt8]
  else if c < 0x10000 then
    [(0xE0 + c / 0x1000).toUInt8, (0x80 + c / 0x40 % 0x40).toUInt8, (0x80 + c % 0x40).toUInt8]
  else [(0xF0 + c / 0x40000).toUInt8, (0x80 + c / 0x1000 % 0x40).toUInt8,
    (0x80 + c / 0x40 % 0x40).toUInt8, (0x80 + c % 0x40).toUInt8]

def encodeUnits : List UInt16 → Option (List UInt16)
  | [] => some []
  | u :: rest =>
    if isUnreserved u then (u :: ·) <$> encodeUnits rest
    else if u < 0xD800 || 0xDFFF < u then
      ((utf8 u.toNat).flatMap percent ++ ·) <$> encodeUnits rest
    else if 0xDBFF < u then none
    else match rest with
      | [] => none
      | v :: rest' =>
        if 0xDC00 ≤ v && v ≤ 0xDFFF then
          let c := 0x10000 + (u.toNat - 0xD800) * 0x400 + (v.toNat - 0xDC00)
          ((utf8 c).flatMap percent ++ ·) <$> encodeUnits rest'
        else none

/-- `encodeURIComponent`, which throws on a lone surrogate. -/
def encodeURIComponent (s : JsString) : Option JsString :=
  (⟨·⟩) <$> encodeUnits s.units

def hexValue (u : UInt16) : Option Nat :=
  if 48 ≤ u && u ≤ 57 then some (u.toNat - 48)
  else if 65 ≤ u && u ≤ 70 then some (u.toNat - 55)
  else if 97 ≤ u && u ≤ 102 then some (u.toNat - 87)
  else none

/-- One `%XX` escape at the head of a text. -/
def escape? : List UInt16 → Option (Nat × List UInt16)
  | p :: a :: b :: rest =>
    if p = 37 then
      match hexValue a, hexValue b with
      | some x, some y => some (x * 16 + y, rest)
      | _, _ => none
    else none
  | _ => none

/-- The continuation bytes of a sequence, each an escape in `0x80..0xBF`. -/
def continuation : Nat → Nat → List UInt16 → Option (Nat × List UInt16)
  | 0, c, rest => some (c, rest)
  | n + 1, c, text =>
    match escape? text with
    | some (b, rest) =>
      if 0x80 ≤ b && b ≤ 0xBF then continuation n (c * 0x40 + (b - 0x80)) rest else none
    | none => none

/-- The character a run of escapes spells; overlong forms, surrogates and code
points past `0x10FFFF` are malformed. -/
def decodeEscape (text : List UInt16) : Option (Nat × List UInt16) :=
  match escape? text with
  | none => none
  | some (b, rest) =>
    let accept (low high : Nat) (r : Option (Nat × List UInt16)) :=
      r.filter fun (c, _) => low ≤ c && c ≤ high && !(0xD800 ≤ c && c ≤ 0xDFFF)
    if b < 0x80 then some (b, rest)
    else if 0xC0 ≤ b && b < 0xE0 then accept 0x80 0x7FF (continuation 1 (b - 0xC0) rest)
    else if 0xE0 ≤ b && b < 0xF0 then accept 0x800 0xFFFF (continuation 2 (b - 0xE0) rest)
    else if 0xF0 ≤ b && b < 0xF8 then accept 0x10000 0x10FFFF (continuation 3 (b - 0xF0) rest)
    else none

def unitsOfCodePoint (c : Nat) : List UInt16 :=
  if c < 0x10000 then [c.toUInt16]
  else [(0xD800 + (c - 0x10000) / 0x400).toUInt16, (0xDC00 + (c - 0x10000) % 0x400).toUInt16]

/-- The fuel is the length of the text, of which every turn reads some. -/
def decodeUnits : Nat → List UInt16 → Option (List UInt16)
  | _, [] => some []
  | 0, _ :: _ => none
  | fuel + 1, u :: rest =>
    if u ≠ 37 then (u :: ·) <$> decodeUnits fuel rest
    else match decodeEscape (u :: rest) with
      | none => none
      | some (c, rest') => (unitsOfCodePoint c ++ ·) <$> decodeUnits fuel rest'

/-- `decodeURIComponent`, which throws on a malformed escape. -/
def decodeURIComponent (s : JsString) : Option JsString :=
  (⟨·⟩) <$> decodeUnits s.units.length s.units

def isCanonicalScopeKeyPart (part : JsString) : Bool :=
  part.units ≠ [] && ((decodeURIComponent part).bind encodeURIComponent) == some part

/-- `key.split(":")`. -/
def splitColon (s : JsString) : List JsString := (s.units.splitOn 58).map (⟨·⟩)

end ScopeKey

open ScopeKey

structure ScopeKeyIdentity where
  principal : Option JsString
  sessionId : Option SessionId
  deriving DecidableEq

/-- A string that JavaScript's `!` calls present. -/
def present (s : Option JsString) : Bool := s.any fun t => t.units ≠ []

def encodeScopeKeyPart (value : JsString) : Except EngineError JsString :=
  match encodeURIComponent value with
  | some part => .ok part
  | none => .error .uri

def resolvePrincipalSessionKey (principal : JsString) (sessionId : SessionId) :
    Except EngineError ScopeKey := do
  let p ← encodeScopeKeyPart principal
  let s ← encodeScopeKeyPart sessionId
  .ok (.append "session:" (.append p (.append ":" s)))

def resolveScopeKey (scope : Option CellScope) (identity : ScopeKeyIdentity) :
    Except EngineError ScopeKey :=
  match scope.getD .space with
  | .space => .ok DEFAULT_SCOPE_KEY
  | .user => do
    require (present identity.principal)
      (.protocol "user scoped memory operations require a principal")
    let p ← encodeScopeKeyPart (identity.principal.getD "")
    .ok (.append "user:" p)
  | .session => do
    require (present identity.principal)
      (.protocol "session scoped memory operations require a principal")
    require (present identity.sessionId)
      (.protocol "session scoped memory operations require a session id")
    resolvePrincipalSessionKey (identity.principal.getD "") (identity.sessionId.getD "")

def scopeOfScopeKey (scopeKey : ScopeKey) : CellScope :=
  if scopeKey.startsWith "session:" then .session
  else if scopeKey.startsWith "user:" then .user
  else .space

/-- Whether `resolveScopeKey` could have constructed the key. -/
def isScopeKey (value : JsString) : Bool :=
  if value = DEFAULT_SCOPE_KEY then true
  else if value.startsWith "user:" then isCanonicalScopeKeyPart (value.slice 5)
  else if value.startsWith "session:" then
    match splitColon value with
    | [_, p, s] => isCanonicalScopeKeyPart p && isCanonicalScopeKeyPart s
    | _ => false
  else false

/-- The key a commit is recorded under: the session's, within its principal's. -/
def resolveCommitSessionKey (sessionId : SessionId) (principal : Option JsString) :
    Except EngineError JsString :=
  if present principal then resolvePrincipalSessionKey (principal.getD "") sessionId
  else .ok sessionId

example : isScopeKey "user:did%3Akey%3Az6" = true := by decide +kernel
example : isScopeKey "user:a%2fb" = false := by decide +kernel
example : resolveScopeKey (some .session) ⟨some "did:key:z", some "s/1"⟩ =
    .ok "session:did%3Akey%3Az:s%2F1" := by decide +kernel
