import CommonFabric.InviteSteps

/-!
# Runs of invitation requests

Requests to one space, with changes of its access list by others between them. What a run must
keep is stated of the list of its entries, and follows by induction from what a step keeps.
-/

namespace Invites

open Ledger

/-- A request, with what the engine would refuse a change of the access list with, or a change of
the access list that is not an invitation's. -/
inductive Event where
  | request (request : InviteRequest) (aclRefusal : Option JsString)
  | aclWritten (value : Option FabricValue)

/-- The time an event is judged at, if it is judged. -/
def Event.time? : Event → Option Int
  | .request r _ => r.time?
  | .aclWritten _ => none

structure Entry where
  before : Ledger
  event : Event
  answer : Option (Except JsString Answer)
  after : Ledger

def step (s : Service) (l : Ledger) : Event → Entry
  | .request request aclRefusal =>
    match executeInvite s aclRefusal l request with
    | .ok (after, answer) => ⟨l, .request request aclRefusal, some (.ok answer), after⟩
    | .error error => ⟨l, .request request aclRefusal, some (.error error), l⟩
  | .aclWritten value => ⟨l, .aclWritten value, none, { l with acl := value }⟩

def history (s : Service) : Ledger → List Event → List Entry
  | _, [] => []
  | l, event :: events => step s l event :: history s (step s l event).after events

/-- A clock that does not go back. -/
def ClockForward (events : List Event) : Prop :=
  (events.filterMap Event.time?).Pairwise (· ≤ ·)

/-- The redemption an entry answers with. -/
def Entry.redemption? (e : Entry) : Option InviteRedemption :=
  match e.answer with
  | some (.ok answer) => answer.redemption?
  | _ => none

def redemptionsOf (inviteId : JsString) (entries : List Entry) : List InviteRedemption :=
  (entries.filterMap Entry.redemption?).filter (·.inviteId = inviteId)

/-- An entry makes a row. -/
def Entry.Creates (e : Entry) (row : ActiveRow) : Prop :=
  row ∈ e.after.invites ∧ row ∉ e.before.invites

def Entry.CreatesId (e : Entry) (inviteId : JsString) : Prop :=
  ∃ row, e.Creates row ∧ row.inviteId = inviteId

/-- An entry answers that an id is revoked. -/
def Entry.Revokes (e : Entry) (inviteId : JsString) : Prop :=
  ∃ request aclRefusal, e.event = .request request aclRefusal ∧
    request.operation = .revoke inviteId ∧ e.answer = some (.ok .revoked)

section

variable {s : Service} {l : Ledger} {event : Event}

@[simp] theorem step_before : (step s l event).before = l := by
  cases event with
  | request request aclRefusal =>
    rw [step]
    split <;> rfl
  | aclWritten value => rfl

@[simp] theorem step_event : (step s l event).event = event := by
  cases event with
  | request request aclRefusal =>
    rw [step]
    split <;> rfl
  | aclWritten value => rfl

/-- A step is a request with its effect, or changes no table. -/
theorem step_cases (s : Service) (l : Ledger) (event : Event) :
    (∃ request aclRefusal now answer, event = .request request aclRefusal ∧
      request.time? = some now ∧ isDIDKey request.principal = true ∧
      isDIDKey s.space = true ∧ (step s l event).answer = some (.ok answer) ∧
      Effect (l.cleanup now) request now (step s l event).after answer) ∨
    ((∀ answer, (step s l event).answer ≠ some (.ok answer)) ∧
      ∃ acl, (step s l event).after = { l with acl := acl }) := by
  cases event with
  | request request aclRefusal =>
    rw [step]
    split
    · rename_i after answer h
      obtain ⟨now, hnow, hprincipal, hspace, heffect⟩ := executeInvite_ok h
      exact .inl ⟨request, aclRefusal, now, answer, rfl, hnow, hprincipal, hspace, rfl, heffect⟩
    · exact .inr ⟨fun answer h => (by cases h), l.acl, rfl⟩
  | aclWritten value => exact .inr ⟨fun answer h => (by cases h), value, rfl⟩

theorem redemption?_of_answer {e : Entry} {answer : Answer} (h : e.answer = some (.ok answer)) :
    e.redemption? = answer.redemption? := by
  rw [Entry.redemption?, h]

theorem redemption?_some {e : Entry} {r : InviteRedemption} (h : e.redemption? = some r) :
    ∃ answer, e.answer = some (.ok answer) := by
  rw [Entry.redemption?] at h
  split at h
  · rename_i answer hanswer
    exact ⟨answer, hanswer⟩
  · cases h

theorem step_redemptions : (step s l event).after.redemptions =
    l.redemptions ++ (step s l event).redemption?.toList := by
  cases step_cases s l event with
  | inl h =>
    obtain ⟨request, aclRefusal, now, answer, -, -, -, -, hanswer, heffect⟩ := h
    rw [heffect.redemptions, cleanup_redemptions, redemption?_of_answer hanswer]
  | inr h =>
    obtain ⟨hundone, acl, hafter⟩ := h
    rw [hafter]
    cases hr : (step s l event).redemption? with
    | none => exact (List.append_nil _).symm
    | some r =>
      obtain ⟨answer, hanswer⟩ := redemption?_some hr
      exact absurd hanswer (hundone answer)

theorem step_valid (h : l.Valid) : (step s l event).after.Valid := by
  cases step_cases s l event with
  | inl hok =>
    obtain ⟨request, aclRefusal, now, answer, -, -, hprincipal, -, -, heffect⟩ := hok
    exact heffect.valid (h.cleanup now) hprincipal
  | inr hsame =>
    obtain ⟨-, acl, hafter⟩ := hsame
    rw [hafter]
    exact h.of_subset (fun _ hr => hr) fun _ hr => hr

theorem usedCount_step (id : JsString) : (step s l event).after.usedCount id =
    l.usedCount id + (redemptionsOf id [step s l event]).length := by
  rw [usedCount, step_redemptions, usedCount_append, redemptionsOf, List.filterMap_cons]
  cases (step s l event).redemption? <;> rfl

/-- A grant is of an invitation that is there and unspent, before it expires, while its issuer is
an owner, to somebody who has not redeemed it. -/
theorem step_grants {r : InviteRedemption} (hvalid : l.Valid)
    (h : (step s l event).redemption? = some r) :
    isDIDKey s.space = true ∧ r ∉ l.redemptions ∧
      (∀ p, accessLevel (enforceable l.acl) p ≤
        accessLevel (enforceable (step s l event).after.acl) p) ∧
      ∃ row ∈ l.invites, row.inviteId = r.inviteId ∧ l.usedCount r.inviteId < row.maxUses ∧
        (∃ now, event.time? = some now ∧ now < row.expiresAt) ∧
        ∃ list, enforceable l.acl = some list ∧ grantOf list row.issuedBy = some .OWNER := by
  cases step_cases s l event with
  | inl hok =>
    obtain ⟨request, aclRefusal, now, answer, hevent, hnow, hprincipal, hspace, hanswer, heffect⟩ :=
      hok
    rw [redemption?_of_answer hanswer] at h
    obtain ⟨row, hgranted, rfl⟩ := heffect.grants h
    obtain ⟨hrow, hlive⟩ := (mem_cleanup hvalid.keyed).1 hgranted.row_mem
    have hkeeps := hgranted.keeps (hvalid.issuers row hrow) hprincipal
    obtain ⟨list, hlist, howner, -⟩ := hgranted.owned
    have hfresh := hgranted.fresh
    have hunspent := hgranted.unspent
    rw [cleanup_acl] at hlist hkeeps
    rw [cleanup_redemptions] at hfresh
    rw [usedCount_cleanup] at hunspent
    refine ⟨hspace, hfresh, hkeeps, row, hrow, rfl, hunspent, ⟨now, ?_, hlive⟩, list, hlist,
      howner⟩
    rw [hevent]
    exact hnow
  | inr hundone =>
    obtain ⟨answer, hanswer⟩ := redemption?_some h
    exact absurd hanswer (hundone.1 answer)

/-- A row is made of an id with no row, no redemption and no rejection that the clock has not
passed. -/
theorem step_creates {row : ActiveRow} (h : (step s l event).Creates row) :
    (∀ r ∈ l.invites, r.inviteId ≠ row.inviteId) ∧ l.usedCount row.inviteId = 0 ∧
      (step s l event).after.usedCount row.inviteId = 0 ∧
      ∃ now, event.time? = some now ∧ ∀ time, l.RejectedUntil row.inviteId time → time < now := by
  obtain ⟨hmem, hnew⟩ := h
  rw [step_before] at hnew
  cases step_cases s l event with
  | inl hok =>
    obtain ⟨request, aclRefusal, now, answer, hevent, hnow, -, -, hanswer, heffect⟩ := hok
    have hcreates := heffect.creates hmem fun hcleaned => hnew (mem_of_mem_cleanup hcleaned)
    obtain ⟨hother, hunused, hrejects, hstill⟩ := hcreates
    rw [usedCount_cleanup] at hunused
    have hfree {time : Int} (hrejected : (l.cleanup now).RejectedUntil row.inviteId time) :
        False := by
      rw [rejects_of_rejectedUntil hrejected] at hrejects
      cases hrejects
    refine ⟨fun r hr heq => ?_, hunused, hstill, now, by rw [hevent]; exact hnow, fun time ht => ?_⟩
    · have hgone : r ∉ (l.cleanup now).invites := fun hcleaned => hother r hcleaned heq
      rw [← heq] at hunused hfree
      exact hfree (rejectedUntil_cleanup hr hunused hgone)
    · by_contra hlate
      exact hfree (ht.cleanup (by omega))
  | inr hsame =>
    obtain ⟨-, acl, hafter⟩ := hsame
    rw [hafter] at hmem
    exact absurd hmem hnew

theorem step_rejectedUntil {id : JsString} {time : Int} (h : l.RejectedUntil id time)
    (htime : ∀ now, event.time? = some now → now ≤ time) :
    (step s l event).after.RejectedUntil id time := by
  cases step_cases s l event with
  | inl hok =>
    obtain ⟨request, aclRefusal, now, answer, hevent, hnow, -, -, -, heffect⟩ := hok
    rw [hevent] at htime
    exact heffect.rejectedUntil (h.cleanup (htime now hnow))
  | inr hsame =>
    obtain ⟨-, acl, hafter⟩ := hsame
    rw [hafter]
    exact h

/-- A row that goes away unused leaves its id rejected. -/
theorem step_removes {row : ActiveRow} (hmem : row ∈ l.invites)
    (hgone : row ∉ (step s l event).after.invites)
    (hunused : (step s l event).after.usedCount row.inviteId = 0) :
    ∃ now, event.time? = some now ∧
      (step s l event).after.RejectedUntil row.inviteId (now + CREATE_REPLAY_WINDOW_MS) := by
  cases step_cases s l event with
  | inl hok =>
    obtain ⟨request, aclRefusal, now, answer, hevent, hnow, -, -, -, heffect⟩ := hok
    refine ⟨now, by rw [hevent]; exact hnow, ?_⟩
    by_cases hcleaned : row ∈ (l.cleanup now).invites
    · exact heffect.removes hcleaned hgone hunused
    · rw [usedCount, heffect.redemptions, usedCount_append, usedCount_cleanup] at hunused
      exact heffect.rejectedUntil (rejectedUntil_cleanup hmem (by omega) hcleaned)
  | inr hsame =>
    obtain ⟨-, acl, hafter⟩ := hsame
    rw [hafter] at hgone
    exact absurd hmem hgone

theorem step_revokes {id : JsString} (h : (step s l event).Revokes id) :
    ∀ r ∈ (step s l event).after.invites, r.inviteId ≠ id := by
  obtain ⟨request, aclRefusal, hevent, hoperation, hanswer⟩ := h
  rw [step_event] at hevent
  cases step_cases s l event with
  | inl hok =>
    obtain ⟨request', aclRefusal', now, answer, hevent', -, -, -, hanswer', heffect⟩ := hok
    rw [hevent] at hevent'
    cases hevent'
    rw [hanswer] at hanswer'
    obtain ⟨id', hoperation', hafter⟩ := heffect.revokes (Except.ok.inj (Option.some.inj hanswer')).symm
    rw [hoperation] at hoperation'
    cases hoperation'
    intro r hr
    rw [hafter, remove_invites] at hr
    simpa using (List.mem_filter.1 hr).2
  | inr hundone => exact absurd hanswer (hundone.1 _)

/-- What asking again gets: the same answer, when the space is there and the code has the form of
one; and nothing changes but for the cleanup. -/
theorem executeInvite_again {aclRefusal : Option JsString} {request : InviteRequest}
    {inviteId code : JsString} {now : Int} (hvalid : l.Valid)
    (hmem : ⟨inviteId, request.principal⟩ ∈ l.redemptions) (hspace : isDIDKey s.space = true)
    (htime : request.time? = some now) (hoperation : request.operation = .redeem inviteId code)
    (hdeleted : (l.acl.map isDeletionTombstone).getD false = false) :
    executeInvite s aclRefusal l request = .ok (l.cleanup now,
      if isInviteSecret code then
        .alreadyRedeemed ⟨inviteId, request.principal⟩ (request.capability (enforceable l.acl))
      else .refused "invalid-request") := by
  obtain ⟨hid, hdid⟩ := hvalid.redeemers _ hmem
  rw [executeInvite, htime]
  simp only [hdid, hspace, hdeleted, hoperation, redeem, hid, cleanup_acl, cleanup_redemptions,
    hmem, Bool.and_self, Bool.not_true, Bool.true_and, Bool.false_eq_true, if_false, if_true]
  cases isInviteSecret code <;> rfl

end

section

variable {s : Service} {l : Ledger} {events : List Event} {pre post : List Entry} {e : Entry}

/-- An entry of a run is a step, and what follows it is a run. -/
theorem history_split (h : history s l events = pre ++ e :: post) (hvalid : l.Valid) :
    ∃ events₁ event events₂, events = events₁ ++ event :: events₂ ∧ e = step s e.before event ∧
      post = history s e.after events₂ ∧ e.before.Valid ∧
      e.before.redemptions = l.redemptions ++ pre.filterMap Entry.redemption? := by
  induction events generalizing l pre with
  | nil => simp [history] at h
  | cons event events ih =>
    rw [history] at h
    cases pre with
    | nil =>
      obtain ⟨hhead, htail⟩ := List.cons.inj h
      subst hhead
      rw [step_before]
      exact ⟨[], event, events, rfl, rfl, htail.symm, hvalid, (List.append_nil _).symm⟩
    | cons first pre =>
      obtain ⟨hhead, htail⟩ := List.cons.inj h
      subst hhead
      obtain ⟨events₁, event', events₂, hevents, hstep, hpost, hvalid', hredemptions⟩ :=
        ih htail (step_valid hvalid)
      refine ⟨event :: events₁, event', events₂, by rw [hevents]; rfl, hstep, hpost, hvalid', ?_⟩
      rw [hredemptions, step_redemptions, List.append_assoc, List.filterMap_cons]
      cases (step s l event).redemption? <;> rfl

theorem usedCount_eq (h : history s l events = pre ++ e :: post) (hvalid : l.Valid)
    (id : JsString) : e.before.usedCount id = l.usedCount id + (redemptionsOf id pre).length := by
  obtain ⟨_, _, _, _, _, _, _, hredemptions⟩ := history_split h hvalid
  rw [usedCount, hredemptions, usedCount_append, redemptionsOf]

/-- A row that is there was there from the start, or was made and has been there since. -/
theorem row_origin {row : ActiveRow} (h : history s l events = pre ++ e :: post)
    (hrow : row ∈ e.before.invites) :
    (row ∈ l.invites ∧ ∀ x ∈ pre, row ∈ x.before.invites ∧ row ∈ x.after.invites) ∨
      ∃ pre' made mid, pre = pre' ++ made :: mid ∧ made.Creates row ∧
        ∀ x ∈ mid, row ∈ x.before.invites ∧ row ∈ x.after.invites := by
  induction events generalizing l pre with
  | nil => simp [history] at h
  | cons event events ih =>
    rw [history] at h
    cases pre with
    | nil =>
      obtain ⟨hhead, -⟩ := List.cons.inj h
      rw [← hhead, step_before] at hrow
      exact .inl ⟨hrow, by simp⟩
    | cons first pre =>
      obtain ⟨hhead, htail⟩ := List.cons.inj h
      cases ih htail with
      | inl hkept =>
        rw [hhead] at hkept
        have hbefore : first.before = l := by rw [← hhead, step_before]
        by_cases hold : row ∈ l.invites
        · exact .inl ⟨hold, List.forall_mem_cons.2 ⟨⟨hbefore ▸ hold, hkept.1⟩, hkept.2⟩⟩
        · exact .inr ⟨[], first, pre, rfl, ⟨hkept.1, hbefore ▸ hold⟩, hkept.2⟩
      | inr hmade =>
        obtain ⟨pre', made, mid, rfl, hcreates, hkept⟩ := hmade
        exact .inr ⟨first :: pre', made, mid, rfl, hcreates, hkept⟩

theorem mem_history (h : e ∈ history s l events) : ∃ l', ∃ event ∈ events, e = step s l' event := by
  induction events generalizing l with
  | nil => cases h
  | cons event events ih =>
    cases List.mem_cons.1 h with
    | inl heq => exact ⟨l, event, List.mem_cons_self, heq⟩
    | inr hmem =>
      obtain ⟨l', event', hevent, heq⟩ := ih hmem
      exact ⟨l', event', List.mem_cons_of_mem _ hevent, heq⟩

theorem ClockForward.of_append {events₁ events₂ : List Event}
    (h : ClockForward (events₁ ++ events₂)) : ClockForward events₂ := by
  rw [ClockForward, List.filterMap_append] at h
  exact (List.pairwise_append.1 h).2.1

theorem ClockForward.of_cons {event : Event} (h : ClockForward (event :: events)) :
    ClockForward events ∧ ∀ now, event.time? = some now →
      ∀ event' ∈ events, ∀ now', event'.time? = some now' → now ≤ now' := by
  have hall : ClockForward ([event] ++ events) := h
  refine ⟨hall.of_append, fun now hnow event' hevent' now' hnow' => ?_⟩
  rw [ClockForward, List.filterMap_cons, hnow, List.pairwise_cons] at h
  exact h.1 now' (List.mem_filterMap.2 ⟨event', hevent', hnow'⟩)

theorem not_createsId_of_used {id : JsString} (hused : l.usedCount id ≠ 0) :
    ∀ e ∈ history s l events, ¬ e.CreatesId id := by
  induction events generalizing l with
  | nil => simp [history]
  | cons event events ih =>
    rw [history, List.forall_mem_cons]
    constructor
    · rintro ⟨row, hcreates, rfl⟩
      exact hused (step_creates hcreates).2.1
    · apply ih
      rw [usedCount_step]
      omega

theorem createsId_of_rejectedUntil {id : JsString} {time : Int} (h : l.RejectedUntil id time)
    (hclock : ClockForward events) :
    ∀ e ∈ history s l events, e.CreatesId id → ∃ now, e.event.time? = some now ∧ time < now := by
  induction events generalizing l with
  | nil => simp [history]
  | cons event events ih =>
    obtain ⟨htail, hafter⟩ := hclock.of_cons
    by_cases hlate : ∃ now, event.time? = some now ∧ time < now
    · obtain ⟨now, hnow, hlate⟩ := hlate
      rw [history, List.forall_mem_cons]
      constructor
      · intro _
        rw [step_event]
        exact ⟨now, hnow, hlate⟩
      · rintro e he ⟨row, hcreates, -⟩
        obtain ⟨l', event', hevent', rfl⟩ := mem_history he
        obtain ⟨-, -, -, now', hnow', -⟩ := step_creates hcreates
        have hle := hafter now hnow event' hevent' now' hnow'
        rw [step_event]
        exact ⟨now', hnow', by omega⟩
    · rw [history, List.forall_mem_cons]
      constructor
      · rintro ⟨row, hcreates, rfl⟩
        obtain ⟨-, -, -, now, hnow, hpast⟩ := step_creates hcreates
        exact absurd ⟨now, hnow, hpast time h⟩ hlate
      · apply ih _ htail
        apply step_rejectedUntil h
        intro now hnow
        by_contra hgt
        exact hlate ⟨now, hnow, by omega⟩

/-- No more grants of a row than it has uses left, as long as its id is not made anew. -/
theorem grants_le {row : ActiveRow} (hvalid : l.Valid)
    (hrow : ∀ r ∈ l.invites, r.inviteId = row.inviteId → r = row)
    (h : ∀ e ∈ history s l events, ¬ e.CreatesId row.inviteId) :
    l.usedCount row.inviteId + (redemptionsOf row.inviteId (history s l events)).length ≤
      max (l.usedCount row.inviteId) row.maxUses := by
  induction events generalizing l with
  | nil => exact Nat.le_max_left _ _
  | cons event events ih =>
    rw [history, List.forall_mem_cons] at h
    obtain ⟨hhead, htail⟩ := h
    have hrow' : ∀ r ∈ (step s l event).after.invites, r.inviteId = row.inviteId → r = row := by
      intro r hr hid
      by_cases hold : r ∈ l.invites
      · exact hrow r hold hid
      · exact absurd ⟨r, ⟨hr, by rwa [step_before]⟩, hid⟩ hhead
    have hrest := ih (step_valid hvalid) hrow' htail
    have hstep : (redemptionsOf row.inviteId [step s l event]).length = 0 ∨
        (redemptionsOf row.inviteId [step s l event]).length = 1 ∧
          l.usedCount row.inviteId < row.maxUses := by
      rw [redemptionsOf, List.filterMap_cons]
      cases hr : (step s l event).redemption? with
      | none => exact .inl rfl
      | some r =>
        by_cases hid : r.inviteId = row.inviteId
        · obtain ⟨-, -, -, row', hmem, hid', hunspent, -, -⟩ := step_grants hvalid hr
          rw [hrow row' hmem (hid'.trans hid), hid] at hunspent
          exact .inr ⟨by simp [hid], hunspent⟩
        · exact .inl (by simp [hid])
    have hsplit : (redemptionsOf row.inviteId (history s l (event :: events))).length =
        (redemptionsOf row.inviteId [step s l event]).length +
          (redemptionsOf row.inviteId (history s (step s l event).after events)).length := by
      rw [history, ← List.singleton_append, redemptionsOf, List.filterMap_append,
        List.filter_append, List.length_append]
      rfl
    rw [usedCount_step] at hrest
    omega

theorem space_of_redeemed {r : InviteRedemption} (hvalid : l.Valid)
    (h : r ∈ (history s l events).filterMap Entry.redemption?) : isDIDKey s.space = true := by
  obtain ⟨e, he, hr⟩ := List.mem_filterMap.1 h
  obtain ⟨pre, post, hsplit⟩ := List.append_of_mem he
  obtain ⟨_, event, _, -, hstep, -, hbefore, -⟩ := history_split hsplit hvalid
  rw [hstep] at hr
  exact (step_grants hbefore hr).1

theorem nodup_redemptions (hvalid : l.Valid) (hnodup : l.redemptions.Nodup) :
    (l.redemptions ++ (history s l events).filterMap Entry.redemption?).Nodup := by
  induction events generalizing l with
  | nil => rwa [history, List.filterMap_nil, List.append_nil]
  | cons event events ih =>
    have hnext := ih (show (step s l event).after.Valid from step_valid hvalid)
    rw [step_redemptions] at hnext
    rw [history, List.filterMap_cons]
    cases hr : (step s l event).redemption? with
    | none =>
      rw [hr, Option.toList_none, List.append_nil] at hnext
      exact hnext hnodup
    | some r =>
      rw [hr, Option.toList_some, List.append_assoc] at hnext
      apply hnext
      obtain ⟨-, hfresh, -, -⟩ := step_grants hvalid hr
      exact List.nodup_append.2 ⟨hnodup, List.nodup_singleton r, fun a ha b hb heq => by
        rw [List.mem_singleton] at hb
        exact hfresh (hb ▸ heq ▸ ha)⟩

end

def Entry.spaceDeleted (e : Entry) : Bool := (e.before.acl.map isDeletionTombstone).getD false

/-- An entry asks for a redemption that was granted. -/
def Entry.AsksAgain (e : Entry) (pre : List Entry) (redemption : InviteRedemption) (now : Int)
    (code : JsString) : Prop :=
  redemption ∈ pre.filterMap Entry.redemption? ∧ ∃ request aclRefusal,
    e.event = .request request aclRefusal ∧ request.principal = redemption.did ∧
      request.operation = .redeem redemption.inviteId code ∧ request.time? = some now

structure Governed (entries : List Entry) : Prop where
  /-- The grants of an invitation, until its id is made anew. -/
  bounded : ∀ pre e mid post row, entries = pre ++ e :: (mid ++ post) → e.Creates row →
    (∀ x ∈ mid, ¬ x.CreatesId row.inviteId) →
      (redemptionsOf row.inviteId mid).length ≤ row.maxUses
  once : (entries.filterMap Entry.redemption?).Nodup
  /-- Asking again, in a space that is there and with a code that has the form of one. -/
  again : ∀ pre e post redemption now code, entries = pre ++ e :: post →
    e.AsksAgain pre redemption now code → e.spaceDeleted = false →
      e.after = e.before.cleanup now ∧ (isInviteSecret code = true →
        ∃ access, e.answer = some (.ok (.alreadyRedeemed redemption access)))
  /-- A grant is of an invitation that was made and neither revoked nor made anew since. -/
  whileLive : ∀ pre e post redemption, entries = pre ++ e :: post →
    e.redemption? = some redemption → ∃ pre' made mid row, pre = pre' ++ made :: mid ∧
      made.Creates row ∧ row.inviteId = redemption.inviteId ∧
      (∀ x ∈ mid, ¬ x.Revokes row.inviteId ∧ ¬ x.CreatesId row.inviteId) ∧
      (∃ now, e.event.time? = some now ∧ now < row.expiresAt) ∧
      ∃ list, enforceable e.before.acl = some list ∧ grantOf list row.issuedBy = some .OWNER
  keeps : ∀ e ∈ entries, e.redemption?.isSome → ∀ p,
    accessLevel (enforceable e.before.acl) p ≤ accessLevel (enforceable e.after.acl) p
  /-- An id that was redeemed is not made again. -/
  redeemed : ∀ pre e post redemption, entries = pre ++ e :: post →
    e.redemption? = some redemption → ∀ x ∈ post, ¬ x.CreatesId redemption.inviteId
  /-- An id whose row went away unused is not made again in the replay window. -/
  removed : ∀ pre e post row, entries = pre ++ e :: post → row ∈ e.before.invites →
    row ∉ e.after.invites → redemptionsOf row.inviteId (pre ++ [e]) = [] →
      ∃ now, e.event.time? = some now ∧ ∀ x ∈ post, x.CreatesId row.inviteId →
        ∃ later, x.event.time? = some later ∧ now + CREATE_REPLAY_WINDOW_MS < later

/-- A space with no invitations yet. -/
def Ledger.fresh (acl : Option FabricValue) : Ledger := ⟨[], [], [], acl⟩

theorem Ledger.fresh_valid (acl : Option FabricValue) : (fresh acl).Valid :=
  ⟨fun _ hr => (List.not_mem_nil hr).elim, fun _ hr => (List.not_mem_nil hr).elim,
    fun _ hr => (List.not_mem_nil hr).elim⟩

section

variable {s : Service} {acl : Option FabricValue} {events : List Event} {pre post : List Entry}
  {e : Entry}

theorem history_prefix {l : Ledger} {mid : List Entry} (h : history s l events = mid ++ post) :
    ∃ events₁, mid = history s l events₁ := by
  induction events generalizing l mid with
  | nil =>
    rw [history, List.nil_eq_append_iff] at h
    exact ⟨[], h.1⟩
  | cons event events ih =>
    cases mid with
    | nil => exact ⟨[], rfl⟩
    | cons first mid =>
      rw [history] at h
      obtain ⟨hhead, htail⟩ := List.cons.inj h
      obtain ⟨events₁, hmid⟩ := ih htail
      exact ⟨event :: events₁, by rw [history, ← hhead, hmid]⟩

theorem run_bounded {mid : List Entry} {row : ActiveRow}
    (h : history s (fresh acl) events = pre ++ e :: (mid ++ post)) (hcreates : e.Creates row)
    (hmid : ∀ x ∈ mid, ¬ x.CreatesId row.inviteId) :
    (redemptionsOf row.inviteId mid).length ≤ row.maxUses := by
  obtain ⟨_, event, events₂, -, hstep, hpost, hvalid, -⟩ := history_split h (fresh_valid acl)
  obtain ⟨events₁, hrun⟩ := history_prefix hpost.symm
  rw [hstep] at hcreates
  obtain ⟨hother, -, hunused, -⟩ := step_creates hcreates
  have hafter : e.after.Valid := by
    rw [hstep]
    exact step_valid hvalid
  rw [← hstep] at hunused hcreates
  have hrow : ∀ r ∈ e.after.invites, r.inviteId = row.inviteId → r = row :=
    fun r hr hid => hafter.keyed r hr row hcreates.1 hid
  rw [hrun] at hmid ⊢
  have hle := grants_le hafter hrow hmid
  omega

section

variable (h : history s (fresh acl) events = pre ++ e :: post)
include h

theorem run_again {redemption : InviteRedemption} {now : Int} {code : JsString}
    (hagain : e.AsksAgain pre redemption now code) (hdeleted : e.spaceDeleted = false) :
    e.after = e.before.cleanup now ∧ (isInviteSecret code = true →
      ∃ access, e.answer = some (.ok (.alreadyRedeemed redemption access))) := by
  obtain ⟨hmem, request, aclRefusal, hevent, hdid, hoperation, htime⟩ := hagain
  obtain ⟨_, event, _, -, hstep, -, hvalid, hredemptions⟩ := history_split h (fresh_valid acl)
  have hspace : isDIDKey s.space = true := by
    apply space_of_redeemed (fresh_valid acl)
    rw [h, List.filterMap_append]
    exact List.mem_append_left _ hmem
  have hold : ⟨redemption.inviteId, request.principal⟩ ∈ e.before.redemptions := by
    rw [hdid, hredemptions]
    exact List.mem_append_right _ hmem
  have hrun := @executeInvite_again _ _ aclRefusal _ _ _ _ hvalid hold hspace htime hoperation hdeleted
  have hevent' : event = .request request aclRefusal := by
    rw [← hevent, hstep, step_event]
  rw [hevent', step, hrun] at hstep
  refine ⟨congrArg Entry.after hstep, fun hcode => ?_⟩
  have hanswer := congrArg Entry.answer hstep
  rw [hcode, if_pos rfl, hdid] at hanswer
  exact ⟨_, hanswer⟩

theorem run_whileLive {redemption : InviteRedemption} (hr : e.redemption? = some redemption) :
    ∃ pre' made mid row, pre = pre' ++ made :: mid ∧ made.Creates row ∧
      row.inviteId = redemption.inviteId ∧
      (∀ x ∈ mid, ¬ x.Revokes row.inviteId ∧ ¬ x.CreatesId row.inviteId) ∧
      (∃ now, e.event.time? = some now ∧ now < row.expiresAt) ∧
      ∃ list, enforceable e.before.acl = some list ∧ grantOf list row.issuedBy = some .OWNER := by
  obtain ⟨_, event, _, -, hstep, -, hvalid, -⟩ := history_split h (fresh_valid acl)
  rw [hstep] at hr
  obtain ⟨-, -, -, row, hrow, hid, -, hlive, howner⟩ := step_grants hvalid hr
  cases row_origin h hrow with
  | inl hold => exact absurd hold.1 List.not_mem_nil
  | inr hmade =>
    obtain ⟨pre', made, mid, rfl, hcreates, hkept⟩ := hmade
    refine ⟨pre', made, mid, row, rfl, hcreates, hid, fun x hx => ?_, ?_, howner⟩
    · have hmem : x ∈ history s (fresh acl) events := by
        rw [h]
        exact List.mem_append_left _ (List.mem_append_right _ (List.mem_cons_of_mem _ hx))
      obtain ⟨l', event', -, hstep'⟩ := mem_history hmem
      obtain ⟨hbefore, hafter⟩ := hkept x hx
      rw [hstep'] at hbefore hafter ⊢
      rw [step_before] at hbefore
      constructor
      · exact fun hrevokes => step_revokes hrevokes row hafter rfl
      · rintro ⟨row', hcreates', hid'⟩
        exact (step_creates hcreates').1 row hbefore hid'.symm
    · rw [hstep, step_event]
      exact hlive

theorem run_redeemed {redemption : InviteRedemption} (hr : e.redemption? = some redemption) :
    ∀ x ∈ post, ¬ x.CreatesId redemption.inviteId := by
  obtain ⟨_, event, _, -, hstep, hpost, -, -⟩ := history_split h (fresh_valid acl)
  rw [hpost]
  apply not_createsId_of_used
  have hused : (redemptionsOf redemption.inviteId [e]).length = 1 := by
    rw [redemptionsOf, List.filterMap_cons, hr]
    simp
  rw [hstep, usedCount_step, ← hstep, hused]
  omega

end

theorem run_removed {row : ActiveRow} (hclock : ClockForward events)
    (h : history s (fresh acl) events = pre ++ e :: post) (hmem : row ∈ e.before.invites)
    (hgone : row ∉ e.after.invites) (hunused : redemptionsOf row.inviteId (pre ++ [e]) = []) :
    ∃ now, e.event.time? = some now ∧ ∀ x ∈ post, x.CreatesId row.inviteId →
      ∃ later, x.event.time? = some later ∧ now + CREATE_REPLAY_WINDOW_MS < later := by
  obtain ⟨events₁, event, events₂, hevents, hstep, hpost, -, -⟩ :=
    history_split h (fresh_valid acl)
  have hcount : e.after.usedCount row.inviteId = 0 := by
    have hbefore := usedCount_eq h (fresh_valid acl) row.inviteId
    have hstepped := @usedCount_step s e.before event row.inviteId
    rw [← hstep] at hstepped
    rw [redemptionsOf, List.filterMap_append, List.filter_append, List.append_eq_nil_iff] at hunused
    rw [redemptionsOf, hunused.1] at hbefore
    rw [redemptionsOf, hunused.2, hbefore] at hstepped
    exact hstepped
  rw [hstep] at hgone hcount
  obtain ⟨now, hnow, hrejected⟩ := step_removes hmem hgone hcount
  rw [← hstep] at hrejected
  rw [hevents] at hclock
  refine ⟨now, by rw [hstep, step_event]; exact hnow, ?_⟩
  rw [hpost]
  exact createsId_of_rejectedUntil hrejected hclock.of_append.of_cons.1

/-- Every run of requests, with a clock that does not go back, in a space that starts with no
invitations. -/
theorem history_governed (hclock : ClockForward events) :
    Governed (history s (fresh acl) events) := by
  constructor
  · intro pre e mid post row h hcreates hmid
    exact run_bounded h hcreates hmid
  · exact nodup_redemptions (fresh_valid acl) List.nodup_nil
  · intro pre e post redemption now code h hagain hdeleted
    exact run_again h hagain hdeleted
  · intro pre e post redemption h hr
    exact run_whileLive h hr
  · intro e he hredeems p
    obtain ⟨pre, post, h⟩ := List.append_of_mem he
    obtain ⟨redemption, hr⟩ := Option.isSome_iff_exists.1 hredeems
    obtain ⟨_, event, _, -, hstep, -, hvalid, -⟩ := history_split h (fresh_valid acl)
    rw [hstep] at hr
    rw [hstep, step_before]
    exact (step_grants hvalid hr).2.2.1 p
  · intro pre e post redemption h hr
    exact run_redeemed h hr
  · intro pre e post row h hmem hgone hunused
    exact run_removed hclock h hmem hgone hunused

end

def guestService : Service where
  space := "did:key:z6MkSpaceSpaceSpaceSpace"
  inviteCodeVerifier _ _ _ _ := .ok "J3evDIg-6J6hSGtQgjKXepGwAAddNn-EV6PPWNVfRXU"

def requestAt (principal : JsString) (now : Int) (operation : InviteOperation) : Event :=
  .request ⟨operation, "https://host.example", principal, .finite now, false⟩ none

def guestAsks (now : Int) : Event :=
  requestAt "did:key:z6MkGuest" now
    (.redeem "AAAAAAAAAAAAAAAAAAAAAA" "AAAAAAAAAAAAAAAAAAAAAAAAAAAAAAAAAAAAAAAAAAA")

def guestEvents : List Event :=
  [ requestAt "did:key:z6MkOwner" 1000 (.create ⟨"AAAAAAAAAAAAAAAAAAAAAA",
      "J3evDIg-6J6hSGtQgjKXepGwAAddNn-EV6PPWNVfRXU", .READ, .finite 3600, none⟩),
    requestAt "did:key:z6MkOwner" 1000 (.create ⟨"BBBBBBBBBBBBBBBBBBBBBB",
      "AAAAAAAAAAAAAAAAAAAAAAAAAAAAAAAAAAAAAAAAAAA", .READ, .finite 1, none⟩),
    guestAsks 1500, guestAsks 3000,
    requestAt "did:key:z6MkGuest" 3500 (.redeem "AAAAAAAAAAAAAAAAAAAAAA" "A"),
    .aclWritten (some (.record [("deleted", .record [("by", .string "did:key:z6MkOwner")])])),
    guestAsks 4000 ]

def guestHistory : List Entry :=
  history guestService (fresh (some (.record [("did:key:z6MkOwner", .string "OWNER")]))) guestEvents

theorem history_governed_guest : Governed guestHistory :=
  @history_governed guestService (some (.record [("did:key:z6MkOwner", .string "OWNER")]))
    guestEvents (by unfold ClockForward; decide +kernel)

/-- Asking again prunes an invitation that has expired, and is refused with a code of the wrong form
or once the space is deleted. -/
theorem again_prunes_and_fails :
    guestHistory[2]?.map (·.answer) = some (some (.ok
      (.redeemed ⟨"AAAAAAAAAAAAAAAAAAAAAA", "did:key:z6MkGuest"⟩ (some .READ)))) ∧
    guestHistory[3]?.map (·.answer) = some (some (.ok
      (.alreadyRedeemed ⟨"AAAAAAAAAAAAAAAAAAAAAA", "did:key:z6MkGuest"⟩ (some .READ)))) ∧
    guestHistory[3]?.map (fun e => decide (e.after = e.before)) = some false ∧
    guestHistory[4]?.map (·.answer) = some (some (.ok (.refused "invalid-request"))) ∧
    guestHistory[6]?.map (·.answer) = some (some (.error "space-deleted")) := by
  decide +kernel

end Invites
