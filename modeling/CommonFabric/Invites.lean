import CommonFabric.Checked
import CommonFabric.Utf8Order

/-!
# Space invitations

An invitation admits principals to a space's access list. Its row says what it grants, how often
and until when; a redemption is kept for good; an id whose row went away unused is rejected for
as long as its signed creation could be replayed. Every operation starts with a cleanup of what
has expired, and is one transaction with the change of the access list it makes.
-/

namespace Invites

inductive Capability where
  | READ
  | WRITE
  | OWNER
  deriving DecidableEq

/-- `CapabilityMap`. -/
def Capability.level : Capability → Nat
  | .READ => 0
  | .WRITE => 1
  | .OWNER => 2

def isCapable (capability requirement : Capability) : Bool :=
  decide (requirement.level ≤ capability.level)

def Capability.toValue : Capability → FabricValue
  | .READ => .string "READ"
  | .WRITE => .string "WRITE"
  | .OWNER => .string "OWNER"

/-- `isCapability`, with the capability it finds. -/
def capability? : FabricValue → Option Capability
  | .string text =>
    if text = "READ" then some .READ
    else if text = "WRITE" then some .WRITE
    else if text = "OWNER" then some .OWNER
    else none
  | _ => none

@[simp] theorem capability?_toValue (c : Capability) : capability? c.toValue = some c := by
  cases c <;> decide

def ANYONE_USER : JsString := "*"

def isDID (input : JsString) : Bool := input.startsWith "did:"

def isDIDKey (input : JsString) : Bool := input.startsWith "did:key:"

def isACLUser (value : JsString) : Bool := value = ANYONE_USER || isDID value

abbrev ACL := List (JsString × FabricValue)

/-- `isACL`, with the list it finds. -/
def acl? : FabricValue → Option ACL
  | .record fields =>
    if fields.all fun field => isACLUser field.1 && (capability? field.2).isSome then some fields
    else none
  | _ => none

def hasConcreteOwner (acl : ACL) : Bool :=
  acl.any fun field => field.1 ≠ ANYONE_USER && capability? field.2 = some .OWNER

def isDeletionTombstone : FabricValue → Bool
  | .record [(key, .record [(inner, .string did)])] =>
    key = "deleted" && inner = "by" && isDID did
  | _ => false

/-- `acl[key]`. -/
def grantOf (acl : ACL) (key : JsString) : Option Capability :=
  (Fields.get? acl key).bind capability?

/-- The list a space is ruled by, if its document holds one with an owner. -/
def enforceable (value : Option FabricValue) : Option ACL :=
  (value.bind acl?).filter hasConcreteOwner

/-- What a list gives a principal, by its own entry or everyone's. -/
def accessOf (acl : Option ACL) (principal : JsString) : Option Capability :=
  acl.bind fun list => (grantOf list principal).or (grantOf list ANYONE_USER)

/-- The value of a digit of base64url. -/
def base64urlDigit (u : UInt16) : Option Nat :=
  let n := u.toNat
  if 65 ≤ n ∧ n ≤ 90 then some (n - 65)
  else if 97 ≤ n ∧ n ≤ 122 then some (n - 71)
  else if 48 ≤ n ∧ n ≤ 57 then some (n + 4)
  else if n = 45 then some 62
  else if n = 95 then some 63
  else none

def isInviteId (value : JsString) : Bool :=
  22 ≤ value.units.length && value.units.length ≤ 64 &&
    value.units.all fun u => (base64urlDigit u).isSome

/-- The canonical text of 32 bytes: the two bits past them are zero. -/
def isInviteSecret (value : JsString) : Bool :=
  value.units.length = 43 && (value.units.all fun u => (base64urlDigit u).isSome) &&
    ((value.units.getLast?.bind base64urlDigit).map fun digit => digit % 4 == 0).getD false

/-- `Number.isSafeInteger`, with the integer it finds. -/
def safeInteger? : JsNumber → Option Int
  | .finite q => if q.den = 1 ∧ q.num.natAbs < 2 ^ 53 then some q.num else none
  | .negZero => some 0
  | _ => none

structure ActiveRow where
  inviteId : JsString
  codeVerifier : JsString
  issuedBy : JsString
  createdAt : Int
  expiresAt : Int
  access : Capability
  maxUses : Nat
  ttlSeconds : Nat
  deriving DecidableEq

structure InviteRedemption where
  inviteId : JsString
  did : JsString
  deriving DecidableEq

/-- An id that may not be created, and until when. -/
structure Rejection where
  inviteId : JsString
  rejectUntil : Int
  deriving DecidableEq

/-- The three tables, and the value of the space's access list document. -/
structure Ledger where
  invites : List ActiveRow
  redemptions : List InviteRedemption
  rejections : List Rejection
  acl : Option FabricValue
  deriving DecidableEq

namespace Ledger

def usedCount (l : Ledger) (inviteId : JsString) : Nat :=
  (l.redemptions.filter (·.inviteId = inviteId)).length

def activeRow (l : Ledger) (inviteId : JsString) : Option ActiveRow :=
  l.invites.find? (·.inviteId = inviteId)

def rejects (l : Ledger) (inviteId : JsString) : Bool :=
  l.rejections.any (·.inviteId = inviteId)

/-- The insertion, which keeps the later time of an id that is there. -/
def reject (l : Ledger) (inviteId : JsString) (rejectUntil : Int) : Ledger :=
  { l with rejections :=
      ⟨inviteId, (l.rejections.filter (·.inviteId = inviteId)).foldl
        (fun latest r => max latest r.rejectUntil) rejectUntil⟩ ::
        l.rejections.filter (·.inviteId ≠ inviteId) }

def CREATE_REPLAY_WINDOW_MS : Int := 361000

def remove (now : Int) (l : Ledger) (inviteId : JsString) : Ledger :=
  let removed := { l with invites := l.invites.filter (·.inviteId ≠ inviteId) }
  if removed.usedCount inviteId = 0 then removed.reject inviteId (now + CREATE_REPLAY_WINDOW_MS)
  else removed

/-- What every operation starts with. -/
def cleanup (now : Int) (l : Ledger) : Ledger :=
  let kept := { l with rejections := l.rejections.filter (now ≤ ·.rejectUntil) }
  (kept.invites.filter (·.expiresAt ≤ now)).foldl (fun l row => l.remove now row.inviteId) kept

end Ledger

structure CreateInvite where
  inviteId : JsString
  codeVerifier : JsString
  access : Capability
  ttlSeconds : JsNumber
  maxUses : Option JsNumber

inductive InviteOperation where
  | create (body : CreateInvite)
  | redeem (inviteId code : JsString)
  | revoke (inviteId : JsString)
  | list
  | receipts (inviteId : Option JsString)

structure InviteRequest where
  operation : InviteOperation
  host : JsString
  principal : JsString
  now : JsNumber
  implicitOwner : Bool

structure InviteMetadata where
  inviteId : JsString
  issuedBy : JsString
  createdAt : Int
  expiresAt : Int
  access : Capability
  maxUses : Nat
  usedCount : Nat
  remainingUses : Int
  deriving DecidableEq

/-- A result, or the code of a refusal that is thrown after the transaction. -/
inductive Answer where
  | refused (code : JsString)
  | redeemed (redemption : InviteRedemption) (currentAccess : Option Capability)
  | alreadyRedeemed (redemption : InviteRedemption) (currentAccess : Option Capability)
  | created (invite : InviteMetadata)
  | revoked
  | listed (invites : List InviteMetadata)
  | receipts (redemptions : List InviteRedemption)
  deriving DecidableEq

/-- The space, and how its codes are hashed (a host or a space that is none is an error). -/
structure Service where
  space : JsString
  inviteCodeVerifier : JsString → JsString → JsString → JsString → Except JsString JsString

/-- `capability()`. -/
def InviteRequest.capability (request : InviteRequest) (acl : Option ACL) : Option Capability :=
  if request.implicitOwner then some .OWNER else accessOf acl request.principal

def Ledger.metadata (l : Ledger) (row : ActiveRow) : InviteMetadata where
  inviteId := row.inviteId
  issuedBy := row.issuedBy
  createdAt := row.createdAt
  expiresAt := row.expiresAt
  access := row.access
  maxUses := row.maxUses
  usedCount := l.usedCount row.inviteId
  remainingUses := (row.maxUses : Int) - l.usedCount row.inviteId

def covers (current : Option Capability) (access : Capability) : Bool :=
  (current.map fun capability => isCapable capability access).getD false

/-- The access list with what the invitation grants, where the principal has less. The engine may
refuse that change. -/
def admitted (aclRefusal : Option JsString) (l : Ledger) (list : ACL) (request : InviteRequest)
    (row : ActiveRow) : Except JsString (Option FabricValue) :=
  if covers (request.capability (some list)) row.access then .ok l.acl
  else match aclRefusal with
    | some error => .error error
    | none => .ok (some (.record (Fields.set list request.principal row.access.toValue)))

/-- A refused change of the access list undoes the transaction. -/
def grant (aclRefusal : Option JsString) (l : Ledger) (list : ACL) (request : InviteRequest)
    (now : Int) (row : ActiveRow) : Except JsString (Ledger × Answer) := do
  let current := request.capability (some list)
  let acl ← admitted aclRefusal l list request row
  let redemption : InviteRedemption := ⟨row.inviteId, request.principal⟩
  let granted := { l with acl := acl, redemptions := l.redemptions ++ [redemption] }
  let finished :=
    if granted.usedCount row.inviteId = row.maxUses then granted.remove now row.inviteId else granted
  .ok (finished, .redeemed redemption (if covers current row.access then current else some row.access))

def redeem (s : Service) (aclRefusal : Option JsString) (l : Ledger) (acl : Option ACL)
    (request : InviteRequest) (now : Int) (inviteId code : JsString) :
    Except JsString (Ledger × Answer) :=
  if !(isInviteId inviteId && isInviteSecret code) then .ok (l, .refused "invalid-request")
  else if ⟨inviteId, request.principal⟩ ∈ l.redemptions then
    .ok (l, .alreadyRedeemed ⟨inviteId, request.principal⟩ (request.capability acl))
  else match l.activeRow inviteId with
    | none => .ok (l, .refused "invite-unavailable")
    | some row =>
      match acl.filter fun list => grantOf list row.issuedBy = some .OWNER with
      | none => .ok (l.remove now inviteId, .refused "invite-unavailable")
      | some list => do
        let verifier ← s.inviteCodeVerifier request.host s.space inviteId code
        if row.codeVerifier ≠ verifier ∨ row.maxUses ≤ l.usedCount inviteId then
          .ok (l, .refused "invite-unavailable")
        else grant aclRefusal l list request now row

/-- `SPACE_INVITE_CAPABILITY`. -/
def maxInviteUses : Int := 1000

def maxTtlSeconds : Int := 30 * 24 * 60 * 60

/-- The uses and the lifetime a creation asks for, where its parameters are in range. -/
def createBounds (body : CreateInvite) : Option (Int × Int) :=
  match (body.maxUses.map safeInteger?).getD (some 1), safeInteger? body.ttlSeconds with
  | some maxUses, some ttlSeconds =>
    if isInviteId body.inviteId && isInviteSecret body.codeVerifier &&
        isCapable .OWNER body.access && 1 ≤ maxUses && maxUses ≤ maxInviteUses &&
        1 ≤ ttlSeconds && ttlSeconds ≤ maxTtlSeconds then some (maxUses, ttlSeconds)
    else none
  | _, _ => none

/-- Refused for an id that is taken by another invitation, was redeemed or may be a replay. A
creation asked for again is answered again. -/
def create (l : Ledger) (request : InviteRequest) (now : Int) (body : CreateInvite) :
    Ledger × Answer :=
  match createBounds body with
  | none => (l, .refused "invalid-request")
  | some (maxUses, ttlSeconds) =>
    match l.activeRow body.inviteId with
    | some existing =>
      if existing.issuedBy ≠ request.principal ∨ existing.codeVerifier ≠ body.codeVerifier ∨
          existing.access ≠ body.access ∨ (existing.maxUses : Int) ≠ maxUses ∨
          (existing.ttlSeconds : Int) ≠ ttlSeconds then (l, .refused "invite-id-unavailable")
      else (l, .created (l.metadata existing))
    | none =>
      if l.usedCount body.inviteId ≠ 0 ∨ l.rejects body.inviteId then
        (l, .refused "invite-id-unavailable")
      else
        let row : ActiveRow :=
          { inviteId := body.inviteId, codeVerifier := body.codeVerifier,
            issuedBy := request.principal, createdAt := now,
            expiresAt := now + ttlSeconds * 1000, access := body.access,
            maxUses := maxUses.toNat, ttlSeconds := ttlSeconds.toNat }
        ({ l with invites := l.invites ++ [row] }, .created (l.metadata row))

/-- The rows in the order of an id. -/
def orderById {α : Type} (id : α → JsString) (rows : List α) : List α := Utf8.sortById id rows

/-- What only an explicit owner may ask for. -/
def administer (l : Ledger) (request : InviteRequest) (now : Int) :
    InviteOperation → Ledger × Answer
  | .create body => create l request now body
  | .list => (l, .listed ((orderById (·.inviteId) l.invites).map l.metadata))
  | .receipts none =>
    (l, .receipts (orderById (·.inviteId) (orderById (·.did) l.redemptions)))
  | .receipts (some id) =>
    if !isInviteId id then (l, .refused "invalid-request")
    else (l, .receipts (orderById (·.did) (l.redemptions.filter (·.inviteId = id))))
  | .revoke inviteId =>
    if !isInviteId inviteId then (l, .refused "invalid-request")
    else (l.remove now inviteId, .revoked)
  | .redeem .. => (l, .refused "invalid-request")

/-- The time a request is judged at, if it is one. -/
def InviteRequest.time? (request : InviteRequest) : Option Int :=
  (safeInteger? request.now).filter (0 ≤ ·)

/-- `executeInvite`. An error undoes the transaction; a refusal does not, and is thrown after
it. `aclRefusal` is what the engine would refuse a change of the access list with. -/
def executeInvite (s : Service) (aclRefusal : Option JsString) (l : Ledger)
    (request : InviteRequest) : Except JsString (Ledger × Answer) :=
  match request.time? with
  | none => .error "invalid-request"
  | some now =>
    if !(isDIDKey request.principal && isDIDKey s.space) then .error "invalid-request"
    else if (l.acl.map isDeletionTombstone).getD false then .error "space-deleted"
    else
      let cleaned := l.cleanup now
      let acl := enforceable cleaned.acl
      match request.operation with
      | .redeem inviteId code => redeem s aclRefusal cleaned acl request now inviteId code
      | operation =>
        if acl.bind (grantOf · request.principal) ≠ some .OWNER then
          .ok (cleaned, .refused "not-owner")
        else .ok (administer cleaned request now operation)

namespace Ledger

variable {l : Ledger} {now : Int} {id : JsString}

@[simp] theorem remove_redemptions : (l.remove now id).redemptions = l.redemptions := by
  unfold remove
  dsimp only
  split <;> rfl

@[simp] theorem remove_acl : (l.remove now id).acl = l.acl := by
  unfold remove
  dsimp only
  split <;> rfl

@[simp] theorem remove_invites : (l.remove now id).invites = l.invites.filter (·.inviteId ≠ id) := by
  unfold remove
  dsimp only
  split <;> rfl

@[simp] theorem usedCount_remove (id' : JsString) :
    (l.remove now id).usedCount id' = l.usedCount id' := by
  rw [usedCount, usedCount, remove_redemptions]

theorem remove_of_used (h : l.usedCount id ≠ 0) :
    l.remove now id = { l with invites := l.invites.filter (·.inviteId ≠ id) } := by
  unfold remove
  dsimp only
  split
  · rename_i hunused
    exact absurd hunused h
  · rfl

/-- An id is rejected up to a time. -/
def RejectedUntil (l : Ledger) (id : JsString) (time : Int) : Prop :=
  ∃ r ∈ l.rejections, r.inviteId = id ∧ time ≤ r.rejectUntil

theorem foldl_max_ge (rs : List Rejection) (start : Int) :
    start ≤ rs.foldl (fun latest r => max latest r.rejectUntil) start ∧
      ∀ r ∈ rs, r.rejectUntil ≤ rs.foldl (fun latest r => max latest r.rejectUntil) start := by
  induction rs generalizing start with
  | nil => exact ⟨Int.le_refl _, by simp⟩
  | cons r rs ih =>
    obtain ⟨hstart, hall⟩ := ih (max start r.rejectUntil)
    rw [List.foldl_cons]
    refine ⟨by omega, fun r' hr' => ?_⟩
    cases List.mem_cons.1 hr' with
    | inl heq => rw [heq]; omega
    | inr hmem => exact hall r' hmem

theorem rejectedUntil_reject (time : Int) : (l.reject id time).RejectedUntil id time :=
  ⟨_, List.mem_cons_self, rfl, (foldl_max_ge _ time).1⟩

variable {time : Int} {rows : List ActiveRow} {row : ActiveRow}

theorem RejectedUntil.reject (h : l.RejectedUntil id time) (id' : JsString)
    (time' : Int) : (l.reject id' time').RejectedUntil id time := by
  obtain ⟨r, hr, hid, htime⟩ := h
  by_cases heq : r.inviteId = id'
  · refine ⟨_, List.mem_cons_self, heq ▸ hid, Int.le_trans htime ?_⟩
    exact (foldl_max_ge _ time').2 r (List.mem_filter.2 ⟨hr, by simpa using heq⟩)
  · exact ⟨r, List.mem_cons_of_mem _ (List.mem_filter.2 ⟨hr, by simpa using heq⟩), hid, htime⟩

theorem RejectedUntil.remove (h : l.RejectedUntil id time) (id' : JsString) :
    (l.remove now id').RejectedUntil id time := by
  unfold Ledger.remove
  dsimp only
  split
  · exact RejectedUntil.reject (l := { l with invites := _ }) h id' _
  · exact h

theorem rejectedUntil_remove (h : l.usedCount id = 0) :
    (l.remove now id).RejectedUntil id (now + CREATE_REPLAY_WINDOW_MS) := by
  unfold remove
  dsimp only
  split
  · exact rejectedUntil_reject _
  · rename_i hused
    exact absurd h hused

theorem rejects_of_rejectedUntil (h : l.RejectedUntil id time) : l.rejects id = true := by
  obtain ⟨r, hr, hid, -⟩ := h
  exact List.any_eq_true.2 ⟨r, hr, by simpa using hid⟩

theorem removeAll_redemptions (rows : List ActiveRow) (l : Ledger) :
    (rows.foldl (fun l row => l.remove now row.inviteId) l).redemptions = l.redemptions := by
  induction rows generalizing l with
  | nil => rfl
  | cons row rows ih => rw [List.foldl_cons, ih, remove_redemptions]

theorem removeAll_acl (rows : List ActiveRow) (l : Ledger) :
    (rows.foldl (fun l row => l.remove now row.inviteId) l).acl = l.acl := by
  induction rows generalizing l with
  | nil => rfl
  | cons row rows ih => rw [List.foldl_cons, ih, remove_acl]

theorem mem_removeAll {l : Ledger} :
    row ∈ (rows.foldl (fun l row => l.remove now row.inviteId) l).invites ↔
      row ∈ l.invites ∧ ∀ r ∈ rows, r.inviteId ≠ row.inviteId := by
  induction rows generalizing l with
  | nil => simp
  | cons r rows ih =>
    rw [List.foldl_cons, ih, remove_invites, List.mem_filter, List.forall_mem_cons]
    constructor
    · rintro ⟨⟨hmem, hne⟩, hrest⟩
      exact ⟨hmem, fun heq => by simp [heq] at hne, hrest⟩
    · rintro ⟨hmem, hne, hrest⟩
      exact ⟨⟨hmem, by simpa using fun heq => hne heq.symm⟩, hrest⟩

theorem RejectedUntil.removeAll {l : Ledger} (h : l.RejectedUntil id time) :
    (rows.foldl (fun l row => l.remove now row.inviteId) l).RejectedUntil id time := by
  induction rows generalizing l with
  | nil => exact h
  | cons row rows ih => exact ih (h.remove _)

theorem rejectedUntil_removeAll {l : Ledger}
    (hrow : row ∈ rows) (h : l.usedCount row.inviteId = 0) :
    (rows.foldl (fun l row => l.remove now row.inviteId) l).RejectedUntil row.inviteId
      (now + CREATE_REPLAY_WINDOW_MS) := by
  induction rows generalizing l with
  | nil => cases hrow
  | cons r rows ih =>
    cases List.mem_cons.1 hrow with
    | inl heq =>
      rw [heq] at h ⊢
      rw [List.foldl_cons]
      exact RejectedUntil.removeAll (rejectedUntil_remove h)
    | inr hmem => exact ih hmem (by rw [usedCount_remove, h])

@[simp] theorem cleanup_redemptions : (l.cleanup now).redemptions = l.redemptions :=
  removeAll_redemptions _ _

@[simp] theorem cleanup_acl : (l.cleanup now).acl = l.acl := removeAll_acl _ _

@[simp] theorem usedCount_cleanup : (l.cleanup now).usedCount id = l.usedCount id := by
  rw [usedCount, usedCount, cleanup_redemptions]

/-- Ids are keys of the invitations. -/
def Keyed (l : Ledger) : Prop :=
  ∀ r ∈ l.invites, ∀ r' ∈ l.invites, r.inviteId = r'.inviteId → r = r'

theorem mem_cleanup (hkey : l.Keyed) :
    row ∈ (l.cleanup now).invites ↔ row ∈ l.invites ∧ now < row.expiresAt := by
  rw [cleanup, mem_removeAll]
  constructor
  · rintro ⟨hmem, hrest⟩
    refine ⟨hmem, ?_⟩
    by_contra hexpired
    exact hrest row (List.mem_filter.2 ⟨hmem, by simpa using hexpired⟩) rfl
  · rintro ⟨hmem, hlive⟩
    refine ⟨hmem, fun r hr heq => ?_⟩
    obtain ⟨hr, hexpired⟩ := List.mem_filter.1 hr
    rw [hkey r hr row hmem heq] at hexpired
    rw [decide_eq_true_eq] at hexpired
    omega

theorem mem_of_mem_cleanup (h : row ∈ (l.cleanup now).invites) :
    row ∈ l.invites := by
  rw [cleanup, mem_removeAll] at h
  exact h.1

theorem RejectedUntil.cleanup (h : l.RejectedUntil id time) (htime : now ≤ time) :
    (l.cleanup now).RejectedUntil id time := by
  obtain ⟨r, hr, hid, hle⟩ := h
  refine RejectedUntil.removeAll ⟨r, List.mem_filter.2 ⟨hr, ?_⟩, hid, hle⟩
  rw [decide_eq_true_eq]
  omega

/-- An unused invitation that expires is rejected from then on. -/
theorem rejectedUntil_cleanup (hrow : row ∈ l.invites)
    (hunused : l.usedCount row.inviteId = 0) (hgone : row ∉ (l.cleanup now).invites) :
    (l.cleanup now).RejectedUntil row.inviteId (now + CREATE_REPLAY_WINDOW_MS) := by
  rw [cleanup, mem_removeAll, not_and] at hgone
  have hexpired := hgone hrow
  push Not at hexpired
  obtain ⟨r, hr, hid⟩ := hexpired
  rw [cleanup, ← hid]
  refine rejectedUntil_removeAll hr ?_
  rw [hid]
  exact hunused

end Ledger

end Invites
