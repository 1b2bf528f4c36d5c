import CommonFabric.JsMap
import CommonFabric.JsValue

/-!
# The session registry

A memory server's sessions, by space and id. A session is resumed with the token of its latest
open, which every open replaces; since the answer that carries a token can be lost, a newer attempt
under the same resume key may present the token that the latest open presented instead. A detached
session is kept for a while, until a read prunes it.
-/

namespace JsNumber

/-- `Math.max(a, b)`. -/
def mathMax (a b : JsNumber) : JsNumber :=
  if a = .nan ∨ b = .nan then .nan
  else if b.gt a ∨ (a = .negZero ∧ b = .finite 0) then b
  else a

end JsNumber

namespace SessionRegistry

/-- What a client sends to open a session. -/
structure SessionDescriptor where
  client : Option FabricValue
  genesisRoot : Option FabricValue
  spaceKind : Option JsString
  instanceNames : Bool
  sessionId : Option JsString
  seenSeq : Option JsNumber
  sessionToken : Option JsString
  resumeKey : Option JsString
  resumeAttempt : Option ℤ
  readCeiling : Option FabricValue
  actingAs : Option JsString

/-- A session. `interests` are its watches and views, with what the server keeps about serving
them, which a resume inherits as they are. -/
structure SessionState (ι : Type) where
  id : JsString
  space : JsString
  sessionToken : JsString
  resumeKey : Option JsString
  resumeAttempt : Option ℤ
  presentedToken : Option JsString
  readCeiling : Option FabricValue
  genesisRoot : Option FabricValue
  spaceKind : Option JsString
  instanceNames : Bool
  seenSeq : JsNumber
  lastSyncedSeq : JsNumber
  /-- Stable across a true resume, replaced when a forgotten session is opened. -/
  viewEpoch : JsString
  interests : ι
  caughtUpLocalSeq : ℕ
  leaseHolderReads : Bool
  servingBinding : Bool
  client : Option FabricValue
  expiresAt : Option ℤ
  ownerConnectionId : Option JsString
  /-- Whether the session has a routed authority. -/
  routedAuthority : Bool
  principal : Option JsString
  actingPrincipal : Option JsString
  capabilityPrincipal : Option JsString
  elidedVerdicts : Bool

inductive SessionLifecycleEvent where
  | opened (space sessionId : JsString) (principal : Option JsString)
      (readCeiling : Option FabricValue)
  | detached (space sessionId : JsString) (expiresAt : ℤ)
  | removed (space sessionId : JsString)

inductive OpenError where
  | authorization (message : JsString)
  | revoked (message : JsString)

structure OpenSessionState where
  sessionId : JsString
  sessionToken : JsString
  serverSeq : ℕ
  caughtUpLocalSeq : ℕ
  resumed : Bool
  revokedConnectionId : Option JsString

def sessionKey (space sessionId : JsString) : JsString := JsString.concat [space, ⟨[0]⟩, sessionId]

/-- What a registry is run with: how long a detached session is kept, the random identifiers it
draws, in order, and the interests of a new session and of one that is cleared. -/
structure Config (ι : Type) where
  ttlMs : ℤ
  randomUUID : ℕ → JsString
  noInterests : ι
  clearInterests : ι → ι

/-- The sessions, and how many random identifiers have been drawn. -/
structure Registry (ι : Type) where
  sessions : JsMap JsString (SessionState ι)
  drawn : ℕ

def initial {ι : Type} : Registry ι := ⟨JsMap.empty, 0⟩

section Registry

variable {ι : Type} (config : Config ι) (r : Registry ι)

def openedEvent (session : SessionState ι) : SessionLifecycleEvent :=
  .opened session.space session.id session.principal session.readCeiling

/-- Whether the time to keep a detached session has run out. -/
def SessionState.expired (session : SessionState ι) (now : ℤ) : Bool :=
  match session.expiresAt with
  | none => false
  | some expiresAt => expiresAt ≤ now

/-- `#prune`. -/
def prune (now : ℤ) : Registry ι × List SessionLifecycleEvent :=
  ({ r with sessions := ⟨r.sessions.entries.filter fun e => !e.2.expired now,
      r.sessions.nodup.sublist (List.Sublist.map _ List.filter_sublist)⟩ },
    (r.sessions.entries.filter fun e => e.2.expired now).map fun e =>
      .removed e.2.space e.2.id)

structure OpenRequest where
  space : JsString
  session : SessionDescriptor
  serverSeq : ℕ
  ownerConnectionId : JsString
  principal : Option JsString
  actingPrincipal : Option JsString
  routed : Bool
  elidedVerdicts : Bool
  capabilityPrincipal : Option JsString

/-- Whether an attempt is newer than the latest open, under its key, and presents its token. -/
def newerAttempt (existing : SessionState ι) (session : SessionDescriptor) : Bool :=
  match existing.resumeKey, existing.presentedToken, existing.resumeAttempt,
      session.resumeAttempt with
  | some key, some token, some last, some attempt =>
    session.resumeKey = some key && session.sessionToken = some token && last < attempt
  | _, _, _, _ => false

/-- Why an open of a session that is there is refused, if it is. -/
def openRefusal (existing : SessionState ι) (request : OpenRequest) (sessionId : JsString) :
    Option OpenError :=
  if existing.routedAuthority && !request.routed then
    some (.authorization "A routed session requires a routed connection")
  else if existing.elidedVerdicts && !request.elidedVerdicts then
    some (.authorization
      "A session opened with elidedVerdicts requires a client that advertises it")
  else if existing.principal.isSome && request.principal ≠ existing.principal then
    some (.authorization (JsString.concat
      ["session ", sessionId, " is already bound to ", existing.principal.getD ""]))
  else if request.session.sessionToken ≠ some existing.sessionToken &&
      !newerAttempt existing request.session then
    some (.revoked (JsString.concat ["session ", sessionId, " resume token is no longer valid"]))
  else none

/-- The session that an open leaves, with the token it draws: a resume inherits what is not
declared afresh, and a new session draws its epoch. -/
def openedSession (existing : Option (SessionState ι)) (request : OpenRequest)
    (sessionId : JsString) (drawn : ℕ) : SessionState ι :=
  let session := request.session
  let seenSeq := JsNumber.mathMax ((existing.map (·.seenSeq)).getD (.finite 0))
    (session.seenSeq.getD (.finite 0))
  { id := sessionId
    space := request.space
    sessionToken := config.randomUUID drawn
    resumeKey := session.resumeKey
    resumeAttempt := session.resumeAttempt
    presentedToken := session.sessionToken
    seenSeq := seenSeq
    lastSyncedSeq := (existing.map (·.lastSyncedSeq)).getD seenSeq
    viewEpoch := (existing.map (·.viewEpoch)).getD (config.randomUUID (drawn + 1))
    interests := (existing.map (·.interests)).getD config.noInterests
    caughtUpLocalSeq := (existing.map (·.caughtUpLocalSeq)).getD 0
    leaseHolderReads := (existing.map (·.leaseHolderReads)).getD false
    client := session.client
    expiresAt := none
    ownerConnectionId := some request.ownerConnectionId
    routedAuthority := (existing.map (·.routedAuthority)).getD false
    principal := (existing.bind (·.principal)).or request.principal
    readCeiling := session.readCeiling
    genesisRoot := session.genesisRoot
    spaceKind := session.spaceKind
    instanceNames := session.instanceNames
    actingPrincipal := request.actingPrincipal
    servingBinding := session.actingAs = some "space-owner"
    capabilityPrincipal := request.capabilityPrincipal
    elidedVerdicts := request.elidedVerdicts }

/-- The connection that loses the session to another's open. -/
def revokedConnection (existing : Option (SessionState ι)) (owner : JsString) : Option JsString :=
  (existing.bind (·.ownerConnectionId)).filter fun before => before ≠ owner ∧ before ≠ ""

structure Opening (ι : Type) where
  registry : Registry ι
  events : List SessionLifecycleEvent
  answer : Except OpenError OpenSessionState

/-- `open`. -/
def openSession (now : ℤ) (request : OpenRequest) : Opening ι :=
  let (pruned, removed) := prune r now
  let sessionId := request.session.sessionId.getD (config.randomUUID pruned.drawn)
  let drawn := if request.session.sessionId.isNone then pruned.drawn + 1 else pruned.drawn
  let key := sessionKey request.space sessionId
  let existing := pruned.sessions.get key
  match existing.bind fun existing => openRefusal existing request sessionId with
  | some refusal => ⟨{ pruned with drawn := drawn }, removed, .error refusal⟩
  | none =>
    let session := openedSession config existing request sessionId drawn
    ⟨⟨pruned.sessions.set key session, if existing.isNone then drawn + 2 else drawn + 1⟩,
      removed ++ [openedEvent session],
      .ok
        { sessionId := sessionId
          sessionToken := session.sessionToken
          serverSeq := request.serverSeq
          caughtUpLocalSeq := session.caughtUpLocalSeq
          resumed := existing.isSome
          revokedConnectionId := revokedConnection existing request.ownerConnectionId }⟩

/-- `get`, and every other read that prunes first. -/
def get (now : ℤ) (space sessionId : JsString) : Registry ι × Option (SessionState ι) :=
  let pruned := (prune r now).1
  (pruned, pruned.sessions.get (sessionKey space sessionId))

/-- A session changed in place. -/
def modify (key : JsString) (f : SessionState ι → SessionState ι) : Registry ι :=
  match r.sessions.get key with
  | none => r
  | some session => { r with sessions := r.sessions.set key (f session) }

def detach (now : ℤ) (space sessionId ownerConnectionId : JsString) :
    Registry ι × List SessionLifecycleEvent :=
  match r.sessions.get (sessionKey space sessionId) with
  | none => (r, [])
  | some session =>
    if session.ownerConnectionId = some ownerConnectionId then
      let expiresAt := now + config.ttlMs
      let detached := { session with ownerConnectionId := none, expiresAt := some expiresAt }
      ({ r with sessions := r.sessions.set (sessionKey space sessionId) detached },
        [.detached space sessionId expiresAt])
    else (r, [])

def remove (space sessionId : JsString) : Registry ι × List SessionLifecycleEvent :=
  if r.sessions.has (sessionKey space sessionId) then
    ({ r with sessions := r.sessions.delete (sessionKey space sessionId) },
      [.removed space sessionId])
  else (r, [])

def updateSeenSeq (now : ℤ) (space sessionId : JsString) (seenSeq : JsNumber) : Registry ι :=
  modify (prune r now).1 (sessionKey space sessionId) fun session =>
    { session with seenSeq := session.seenSeq.mathMax seenSeq }

/-- Clears a routed context's retained interests before a fresh-context restore. -/
def clearRoutedInterests (space sessionId : JsString) : Registry ι :=
  modify r (sessionKey space sessionId) fun session =>
    { session with interests := config.clearInterests session.interests }

/-- The server gives a session that is opened over a routed connection its authority. -/
def admitRouted (now : ℤ) (space sessionId : JsString) : Registry ι :=
  modify (prune r now).1 (sessionKey space sessionId) fun session =>
    { session with routedAuthority := true }

end Registry

inductive Call where
  | openSession (now : ℤ) (request : OpenRequest)
  | get (now : ℤ) (space sessionId : JsString)
  | detach (now : ℤ) (space sessionId ownerConnectionId : JsString)
  | remove (space sessionId : JsString)
  | updateSeenSeq (now : ℤ) (space sessionId : JsString) (seenSeq : JsNumber)
  | clearRoutedInterests (space sessionId : JsString)
  | admitRouted (now : ℤ) (space sessionId : JsString)

/-- The seen seq that a call presents. -/
def Call.seenSeq? : Call → Option JsNumber
  | .openSession _ request => request.session.seenSeq
  | .updateSeenSeq _ _ _ seenSeq => some seenSeq
  | _ => none

section Run

variable {ι : Type} (config : Config ι)

def apply (r : Registry ι) : Call → Registry ι
  | .openSession now request => (openSession config r now request).registry
  | .get now space sessionId => (get r now space sessionId).1
  | .detach now space sessionId owner => (detach config r now space sessionId owner).1
  | .remove space sessionId => (remove r space sessionId).1
  | .updateSeenSeq now space sessionId seenSeq => updateSeenSeq r now space sessionId seenSeq
  | .clearRoutedInterests space sessionId => clearRoutedInterests config r space sessionId
  | .admitRouted now space sessionId => admitRouted r now space sessionId

def run (calls : List Call) : Registry ι := calls.foldl (apply config) initial

end Run

end SessionRegistry
