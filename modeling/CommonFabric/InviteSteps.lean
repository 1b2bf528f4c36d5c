import CommonFabric.FieldOrder
import CommonFabric.Invites

/-!
# What one invitation request does

Every request that is not undone has one of five effects on the ledger its cleanup leaves. The
facts about a step that a run needs are read off that list.
-/

namespace Invites

open Ledger

/-- The ledger after a redemption, from the one before it. -/
structure Granted (cleaned : Ledger) (request : InviteRequest) (row : ActiveRow)
    (after : Ledger) : Prop where
  row_mem : row ∈ cleaned.invites
  id_valid : isInviteId row.inviteId = true
  fresh : ⟨row.inviteId, request.principal⟩ ∉ cleaned.redemptions
  unspent : cleaned.usedCount row.inviteId < row.maxUses
  owned : ∃ list, enforceable cleaned.acl = some list ∧
    grantOf list row.issuedBy = some .OWNER ∧
    (after.acl = cleaned.acl ∨
      covers (request.capability (some list)) row.access = false ∧
        after.acl = some (.record (Fields.set list request.principal row.access.toValue)))
  redemptions : after.redemptions = cleaned.redemptions ++ [⟨row.inviteId, request.principal⟩]
  invites : ∀ r ∈ after.invites, r ∈ cleaned.invites
  others : ∀ r ∈ cleaned.invites, r.inviteId ≠ row.inviteId → r ∈ after.invites
  rejections : after.rejections = cleaned.rejections

/-- The answers given to no request that leaves the ledger as it is. -/
def Answer.reportsChange : Answer → Bool
  | .redeemed .. | .revoked => true
  | _ => false

/-- What a request that is not undone does to the ledger its cleanup leaves. -/
inductive Effect (cleaned : Ledger) (request : InviteRequest) (now : Int) :
    Ledger → Answer → Prop
  | unchanged (answer : Answer) (hanswer : answer.reportsChange = false) :
      Effect cleaned request now cleaned answer
  | dropped (inviteId : JsString) :
      Effect cleaned request now (cleaned.remove now inviteId) (.refused "invite-unavailable")
  | granted (row : ActiveRow) (after : Ledger) (access : Option Capability)
      (h : Granted cleaned request row after) :
      Effect cleaned request now after (.redeemed ⟨row.inviteId, request.principal⟩ access)
  | created (row : ActiveRow) (hnone : cleaned.activeRow row.inviteId = none)
      (hunused : cleaned.usedCount row.inviteId = 0)
      (hrejects : cleaned.rejects row.inviteId = false)
      (hissuer : row.issuedBy = request.principal) :
      Effect cleaned request now { cleaned with invites := cleaned.invites ++ [row] }
        (.created (cleaned.metadata row))
  | revoked (inviteId : JsString) (hrequest : request.operation = .revoke inviteId) :
      Effect cleaned request now (cleaned.remove now inviteId) .revoked

variable {l after : Ledger} {row : ActiveRow} {aclRefusal : Option JsString} {list : ACL}
  {request : InviteRequest} {now : Int} {answer : Answer}

theorem activeRow_some {id : JsString}
    (h : l.activeRow id = some row) : row ∈ l.invites ∧ row.inviteId = id := by
  rw [activeRow] at h
  exact ⟨List.mem_of_find?_eq_some h, by simpa using List.find?_some h⟩

theorem activeRow_none {id : JsString} (h : l.activeRow id = none) :
    ∀ row ∈ l.invites, row.inviteId ≠ id := by
  intro row hrow
  simpa using List.find?_eq_none.1 h row hrow

theorem admitted_ok {acl : Option FabricValue}
    (h : admitted aclRefusal l list request row = .ok acl) :
    acl = l.acl ∨ covers (request.capability (some list)) row.access = false ∧
      acl = some (.record (Fields.set list request.principal row.access.toValue)) := by
  unfold admitted at h
  split at h
  · exact .inl (Except.ok.inj h).symm
  · rename_i hcovers
    cases aclRefusal with
    | some error => cases h
    | none => exact .inr ⟨by simpa using hcovers, (Except.ok.inj h).symm⟩

theorem grant_effect (hrow : row ∈ l.invites) (hid : isInviteId row.inviteId = true)
    (hfresh : ⟨row.inviteId, request.principal⟩ ∉ l.redemptions)
    (hunspent : l.usedCount row.inviteId < row.maxUses) (hacl : enforceable l.acl = some list)
    (howner : grantOf list row.issuedBy = some .OWNER)
    (h : grant aclRefusal l list request now row = .ok (after, answer)) :
    Effect l request now after answer := by
  obtain ⟨acl, hset, h⟩ := Except.bind_ok_iff.1 h
  obtain ⟨hafter, hanswer⟩ := Prod.mk.inj (Except.ok.inj h)
  rw [← hanswer]
  apply Effect.granted row after
  have hused : Ledger.usedCount
      { l with acl := acl, redemptions := l.redemptions ++ [⟨row.inviteId, request.principal⟩] }
      row.inviteId ≠ 0 := by
    simp [usedCount]
  split at hafter
  · rw [remove_of_used hused] at hafter
    subst hafter
    exact { row_mem := hrow, id_valid := hid, fresh := hfresh, unspent := hunspent,
            owned := ⟨list, hacl, howner, admitted_ok hset⟩, redemptions := rfl,
            invites := fun r hr => (List.mem_filter.1 hr).1,
            others := fun r hr hne => List.mem_filter.2 ⟨hr, by simpa using hne⟩,
            rejections := rfl }
  · subst hafter
    exact { row_mem := hrow, id_valid := hid, fresh := hfresh, unspent := hunspent,
            owned := ⟨list, hacl, howner, admitted_ok hset⟩, redemptions := rfl,
            invites := fun _ hr => hr, others := fun _ hr _ => hr, rejections := rfl }

theorem redeem_effect {s : Service} {inviteId code : JsString}
    (h : redeem s aclRefusal l (enforceable l.acl) request now inviteId code =
      .ok (after, answer)) : Effect l request now after answer := by
  unfold redeem at h
  split at h
  · cases h
    exact .unchanged _ rfl
  rename_i hvalid
  split at h
  · cases h
    exact .unchanged _ rfl
  rename_i hfresh
  split at h
  · cases h
    exact .unchanged _ rfl
  rename_i row hrow
  obtain ⟨hmem, rfl⟩ := activeRow_some hrow
  split at h
  · cases h
    exact .dropped _
  rename_i list hlist
  obtain ⟨hacl, howner⟩ := Option.filter_eq_some_iff.1 hlist
  obtain ⟨verifier, -, h⟩ := Except.bind_ok_iff.1 h
  split at h
  · cases h
    exact .unchanged _ rfl
  rename_i hspent
  rw [not_or, Nat.not_le] at hspent
  have hid : isInviteId row.inviteId = true := by
    rw [Bool.not_eq_true, Bool.not_eq_false', Bool.and_eq_true] at hvalid
    exact hvalid.1
  exact grant_effect hmem hid hfresh hspent.2 hacl (by simpa using howner) h

theorem create_effect {body : CreateInvite} (h : create l request now body = (after, answer)) :
    Effect l request now after answer := by
  unfold create at h
  split at h
  · cases h
    exact .unchanged _ rfl
  rename_i maxUses ttlSeconds hbounds
  split at h
  · split at h
    · cases h
      exact .unchanged _ rfl
    · cases h
      exact .unchanged _ rfl
  rename_i hnone
  split at h
  · cases h
    exact .unchanged _ rfl
  rename_i hfree
  rw [not_or, not_not, Bool.not_eq_true] at hfree
  cases h
  exact .created _ hnone hfree.1 hfree.2 rfl

theorem administer_effect (h : administer l request now request.operation = (after, answer)) :
    Effect l request now after answer := by
  cases hoperation : request.operation with
  | create body =>
    rw [hoperation] at h
    exact create_effect h
  | redeem inviteId code =>
    rw [hoperation] at h
    cases h
    exact .unchanged _ rfl
  | list =>
    rw [hoperation] at h
    cases h
    exact .unchanged _ rfl
  | receipts inviteId =>
    rw [hoperation] at h
    cases inviteId with
    | none =>
      cases h
      exact .unchanged _ rfl
    | some id =>
      rw [administer] at h
      split at h
      · cases h
        exact .unchanged _ rfl
      · cases h
        exact .unchanged _ rfl
  | revoke inviteId =>
    rw [hoperation, administer] at h
    split at h
    · cases h
      exact .unchanged _ rfl
    · cases h
      exact .revoked _ hoperation

/-- What every request that is not undone passed, and what it did. -/
theorem executeInvite_ok {s : Service}
    (h : executeInvite s aclRefusal l request = .ok (after, answer)) :
    ∃ now, request.time? = some now ∧ isDIDKey request.principal = true ∧
      isDIDKey s.space = true ∧ Effect (l.cleanup now) request now after answer := by
  unfold executeInvite at h
  split at h
  · cases h
  rename_i now hnow
  split at h
  · cases h
  rename_i hdids
  rw [Bool.not_eq_true, Bool.not_eq_false', Bool.and_eq_true] at hdids
  split at h
  · cases h
  refine ⟨now, hnow, hdids.1, hdids.2, ?_⟩
  dsimp only at h
  split at h
  · exact redeem_effect h
  split at h
  · cases h
    exact .unchanged _ rfl
  · exact administer_effect (Except.ok.inj h)

def Answer.redemption? : Answer → Option InviteRedemption
  | .redeemed redemption _ => some redemption
  | _ => none

/-- The rows of a ledger are well formed. -/
structure Ledger.Valid (l : Ledger) : Prop where
  keyed : l.Keyed
  issuers : ∀ row ∈ l.invites, isDIDKey row.issuedBy = true
  redeemers : ∀ r ∈ l.redemptions, isInviteId r.inviteId = true ∧ isDIDKey r.did = true

theorem Ledger.Valid.of_subset {l' : Ledger} (h : l.Valid)
    (hinvites : ∀ r ∈ l'.invites, r ∈ l.invites)
    (hredemptions : ∀ r ∈ l'.redemptions, r ∈ l.redemptions) : l'.Valid where
  keyed r hr r' hr' heq := h.keyed r (hinvites r hr) r' (hinvites r' hr') heq
  issuers row hrow := h.issuers row (hinvites row hrow)
  redeemers r hr := h.redeemers r (hredemptions r hr)

theorem Ledger.Valid.cleanup (h : l.Valid) (now : Int) : (l.cleanup now).Valid :=
  h.of_subset (fun _ hr => mem_of_mem_cleanup hr) fun _ hr => by rwa [cleanup_redemptions] at hr

section

variable {cleaned : Ledger}

theorem mem_of_mem_remove {l : Ledger} {id : JsString} {r : ActiveRow}
    (h : r ∈ (l.remove now id).invites) : r ∈ l.invites := by
  rw [remove_invites] at h
  exact (List.mem_filter.1 h).1

theorem mem_remove {l : Ledger} {id : JsString} {r : ActiveRow} (h : r ∈ l.invites)
    (hne : r.inviteId ≠ id) : r ∈ (l.remove now id).invites := by
  rw [remove_invites]
  exact List.mem_filter.2 ⟨h, by simpa using hne⟩

section

variable (h : Effect cleaned request now after answer)
include h

theorem Effect.redemptions :
    after.redemptions = cleaned.redemptions ++ answer.redemption?.toList := by
  cases h with
  | unchanged _ hanswer =>
    cases answer with
    | redeemed _ _ => cases hanswer
    | _ => exact (List.append_nil _).symm
  | dropped id => exact remove_redemptions.trans (List.append_nil _).symm
  | granted row _ _ h => exact h.redemptions
  | created row hnone hunused hrejects hissuer => exact (List.append_nil _).symm
  | revoked id hrequest => exact remove_redemptions.trans (List.append_nil _).symm

theorem Effect.valid (hvalid : cleaned.Valid) (hprincipal : isDIDKey request.principal = true) :
    after.Valid := by
  cases h with
  | unchanged _ hanswer => exact hvalid
  | dropped id =>
    apply hvalid.of_subset
    · exact fun _ hr => mem_of_mem_remove hr
    · exact fun _ hr => by rwa [remove_redemptions] at hr
  | granted row _ _ h =>
    constructor
    · exact fun r hr r' hr' heq => hvalid.keyed r (h.invites r hr) r' (h.invites r' hr') heq
    · exact fun r hr => hvalid.issuers r (h.invites r hr)
    · intro r hr
      rw [h.redemptions, List.mem_append, List.mem_singleton] at hr
      cases hr with
      | inl hold => exact hvalid.redeemers r hold
      | inr hnew =>
        rw [hnew]
        exact ⟨h.id_valid, hprincipal⟩
  | created row hnone hunused hrejects hissuer =>
    have hmem {r : ActiveRow} (hr : r ∈ cleaned.invites ++ [row]) :
        r ∈ cleaned.invites ∨ r = row := by
      rwa [List.mem_append, List.mem_singleton] at hr
    constructor
    · intro r hr r' hr' heq
      cases hmem hr with
      | inl hold =>
        cases hmem hr' with
        | inl hold' => exact hvalid.keyed r hold r' hold' heq
        | inr hnew' => exact absurd (heq.trans (hnew' ▸ rfl)) (activeRow_none hnone r hold)
      | inr hnew =>
        cases hmem hr' with
        | inl hold' => exact absurd (heq.symm.trans (hnew ▸ rfl)) (activeRow_none hnone r' hold')
        | inr hnew' => rw [hnew, hnew']
    · intro r hr
      cases hmem hr with
      | inl hold => exact hvalid.issuers r hold
      | inr hnew => rw [hnew, hissuer, hprincipal]
    · exact hvalid.redeemers
  | revoked id hrequest =>
    apply hvalid.of_subset
    · exact fun _ hr => mem_of_mem_remove hr
    · exact fun _ hr => by rwa [remove_redemptions] at hr

theorem Effect.grants {r : InviteRedemption} (hr : answer.redemption? = some r) :
    ∃ row, Granted cleaned request row after ∧ r = ⟨row.inviteId, request.principal⟩ := by
  cases h with
  | unchanged _ hanswer =>
    cases answer with
    | redeemed _ _ => cases hanswer
    | _ => cases hr
  | dropped id => cases hr
  | granted row _ _ h => exact ⟨row, h, (Option.some.inj hr).symm⟩
  | created row hnone hunused hrejects hissuer => cases hr
  | revoked id hrequest => cases hr

theorem Effect.revokes (hanswer : answer = .revoked) :
    ∃ id, request.operation = .revoke id ∧ after = cleaned.remove now id := by
  cases h with
  | unchanged _ hplain =>
    rw [hanswer] at hplain
    cases hplain
  | dropped id => cases hanswer
  | granted row _ _ h => cases hanswer
  | created row hnone hunused hrejects hissuer => cases hanswer
  | revoked id hrequest => exact ⟨id, hrequest, rfl⟩

/-- A row that was not there is of an id that was neither taken, nor redeemed, nor rejected. -/
theorem Effect.creates {row : ActiveRow} (hmem : row ∈ after.invites)
    (hnew : row ∉ cleaned.invites) :
    (∀ r ∈ cleaned.invites, r.inviteId ≠ row.inviteId) ∧ cleaned.usedCount row.inviteId = 0 ∧
      cleaned.rejects row.inviteId = false ∧ after.usedCount row.inviteId = 0 := by
  cases h with
  | unchanged _ hanswer => exact absurd hmem hnew
  | dropped id => exact absurd (mem_of_mem_remove hmem) hnew
  | granted _ _ _ h => exact absurd (h.invites row hmem) hnew
  | created r hnone hunused hrejects hissuer =>
    cases List.mem_append.1 hmem with
    | inl hold => exact absurd hold hnew
    | inr hlast =>
      rw [List.mem_singleton] at hlast
      rw [hlast]
      exact ⟨activeRow_none hnone, hunused, hrejects, hunused⟩
  | revoked id hrequest => exact absurd (mem_of_mem_remove hmem) hnew

theorem Effect.rejectedUntil {id : JsString} {time : Int}
    (hrejected : cleaned.RejectedUntil id time) : after.RejectedUntil id time := by
  cases h with
  | unchanged _ hanswer => exact hrejected
  | dropped id' => exact hrejected.remove id'
  | granted row _ _ h =>
    rw [RejectedUntil, h.rejections]
    exact hrejected
  | created row hnone hunused hrejects hissuer => exact hrejected
  | revoked id' hrequest => exact hrejected.remove id'

end

theorem usedCount_append (l : Ledger) (more : List InviteRedemption) (id : JsString) :
    ((l.redemptions ++ more).filter (·.inviteId = id)).length =
      l.usedCount id + (more.filter (·.inviteId = id)).length := by
  rw [List.filter_append, List.length_append, usedCount]

/-- A row that is removed unused leaves its id rejected. -/
theorem Effect.removes {row : ActiveRow} (h : Effect cleaned request now after answer)
    (hmem : row ∈ cleaned.invites) (hgone : row ∉ after.invites)
    (hunused : after.usedCount row.inviteId = 0) :
    after.RejectedUntil row.inviteId (now + CREATE_REPLAY_WINDOW_MS) := by
  have hremove {id : JsString} (hgone : row ∉ (cleaned.remove now id).invites)
      (hunused : (cleaned.remove now id).usedCount row.inviteId = 0) :
      (cleaned.remove now id).RejectedUntil row.inviteId (now + CREATE_REPLAY_WINDOW_MS) := by
    have hid : row.inviteId = id := by
      by_contra hne
      exact hgone (mem_remove hmem hne)
    rw [usedCount_remove] at hunused
    rw [← hid]
    exact rejectedUntil_remove hunused
  cases h with
  | unchanged _ hanswer => exact absurd hmem hgone
  | dropped id => exact hremove hgone hunused
  | granted row' _ _ h =>
    have hid : row.inviteId = row'.inviteId := by
      by_contra hne
      exact hgone (h.others row hmem hne)
    rw [usedCount, h.redemptions, usedCount_append, hid] at hunused
    simp at hunused
  | created _ hnone hunused hrejects hissuer => exact absurd (List.mem_append_left _ hmem) hgone
  | revoked id hrequest => exact hremove hgone hunused

end

/-- How much a list gives a principal: nothing, or one more than the level it gives. -/
def accessLevel (acl : Option ACL) (principal : JsString) : Nat :=
  ((accessOf acl principal).map (·.level + 1)).getD 0

theorem grantOf_set (list : ACL) (principal key : JsString) (access : Capability) :
    grantOf (Fields.set list principal access.toValue) key =
      if principal = key then some access else grantOf list key := by
  rw [grantOf, Fields.get?_set]
  split
  · exact capability?_toValue access
  · rfl

theorem acl?_record {fields : ACL} (h : acl? (.record fields) = some list) :
    fields = list ∧ ∀ field ∈ fields, isACLUser field.1 = true ∧ (capability? field.2).isSome := by
  rw [acl?] at h
  split at h
  · rename_i hall
    refine ⟨Option.some.inj h, fun field hfield => ?_⟩
    rw [List.all_eq_true] at hall
    simpa using hall field hfield
  · cases h

theorem enforceable_some {value : Option FabricValue} (h : enforceable value = some list) :
    ∀ field ∈ list, isACLUser field.1 = true ∧ (capability? field.2).isSome := by
  obtain ⟨hacl, -⟩ := Option.filter_eq_some_iff.1 h
  obtain ⟨v, -, hv⟩ := Option.bind_eq_some_iff.1 hacl
  cases v with
  | record fields =>
    obtain ⟨rfl, hall⟩ := acl?_record hv
    exact hall
  | _ => cases hv

theorem enforceable_set {principal issuer : JsString} {access : Capability}
    (hlist : ∀ field ∈ list, isACLUser field.1 = true ∧ (capability? field.2).isSome)
    (hprincipal : isACLUser principal = true) (hne : principal ≠ issuer)
    (hissuer : issuer ≠ ANYONE_USER) (howner : grantOf list issuer = some .OWNER) :
    enforceable (some (.record (Fields.set list principal access.toValue))) =
      some (Fields.set list principal access.toValue) := by
  have hacl : acl? (.record (Fields.set list principal access.toValue)) =
      some (Fields.set list principal access.toValue) := by
    rw [acl?, if_pos]
    rw [List.all_eq_true]
    intro field hfield
    cases Fields.mem_set hfield with
    | inl hset => rw [hset, capability?_toValue, hprincipal]; rfl
    | inr hold => simpa using hlist field hold
  have hconcrete : hasConcreteOwner (Fields.set list principal access.toValue) = true := by
    have hget := grantOf_set list principal issuer access
    rw [if_neg hne, howner, grantOf, Option.bind_eq_some_iff] at hget
    obtain ⟨v, hv, hcap⟩ := hget
    obtain ⟨field, hfind, rfl⟩ := Option.map_eq_some_iff.1 hv
    rw [hasConcreteOwner, List.any_eq_true]
    refine ⟨field, List.mem_of_find?_eq_some hfind, ?_⟩
    have hkey : field.1 = issuer := by simpa using List.find?_some hfind
    simp [hkey, hissuer, hcap]
  rw [enforceable, Option.bind_some, hacl, Option.filter_some, if_pos hconcrete]

theorem ne_anyone {did : JsString} (h : isDIDKey did = true) : did ≠ ANYONE_USER := by
  intro heq
  rw [heq] at h
  revert h
  decide

theorem isDID_of_isDIDKey {did : JsString} (h : isDIDKey did = true) : isDID did = true := by
  rw [isDIDKey, JsString.startsWith, List.isPrefixOf_iff_prefix] at h
  rw [isDID, JsString.startsWith, List.isPrefixOf_iff_prefix]
  exact List.IsPrefix.trans (List.isPrefixOf_iff_prefix.1 (by decide)) h

theorem covers_owner (access : Capability) : covers (some .OWNER) access = true := by
  cases access <;> decide

/-- A redemption lowers nobody's access. -/
theorem Granted.keeps {cleaned after : Ledger} {request : InviteRequest}
    (h : Granted cleaned request row after) (hissuer : isDIDKey row.issuedBy = true)
    (hprincipal : isDIDKey request.principal = true) (p : JsString) :
    accessLevel (enforceable cleaned.acl) p ≤ accessLevel (enforceable after.acl) p := by
  obtain ⟨list, hlist, howner, hacl⟩ := h.owned
  cases hacl with
  | inl hsame => rw [hsame]
  | inr hset =>
    obtain ⟨hcovers, hset⟩ := hset
    have hexplicit : request.capability (some list) = accessOf (some list) request.principal := by
      rw [InviteRequest.capability, if_neg]
      intro himplicit
      rw [InviteRequest.capability, if_pos himplicit, covers_owner] at hcovers
      cases hcovers
    have hne : request.principal ≠ row.issuedBy := by
      intro heq
      rw [hexplicit, accessOf, Option.bind_some, heq, howner, Option.some_or,
        covers_owner] at hcovers
      cases hcovers
    have huser : isACLUser request.principal = true := by
      rw [isACLUser, isDID_of_isDIDKey hprincipal, Bool.or_true]
    rw [hset, hlist, enforceable_set (enforceable_some hlist) huser hne (ne_anyone hissuer) howner,
      accessLevel, accessLevel, accessOf, accessOf, Option.bind_some, Option.bind_some, grantOf_set,
      grantOf_set, if_neg (ne_anyone hprincipal)]
    split
    · rename_i heq
      rw [← heq]
      rw [hexplicit, accessOf, Option.bind_some] at hcovers
      cases hcurrent : (grantOf list request.principal).or (grantOf list ANYONE_USER) with
      | none => exact Nat.zero_le _
      | some current =>
        rw [hcurrent, covers, Option.map_some, Option.getD_some, isCapable,
          decide_eq_false_iff_not] at hcovers
        simp only [Option.some_or, Option.map_some, Option.getD_some]
        omega
    · exact Nat.le_refl _

end Invites
