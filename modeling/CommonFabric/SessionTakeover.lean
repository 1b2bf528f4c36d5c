import Mathlib.Data.List.Induction
import CommonFabric.SessionRegistry

/-!
# Taking a session over

A session goes to another connection only by an open that presents the token of its latest open, or
that is newer than this open under its key and presents what it presented. Once an attempt is
neither, no later open makes it one of them again. What a session has seen grows as long as no
client says that it has seen `NaN`.
-/

namespace JsNumber

/-- `a <= b`. -/
def AtMost (a b : JsNumber) : Prop := a ≠ .nan ∧ b ≠ .nan ∧ a.gt b = false

theorem AtMost.trans {a b c : JsNumber} (hab : AtMost a b) (hbc : AtMost b c) : AtMost a c := by
  refine ⟨hab.1, hbc.2.1, ?_⟩
  obtain ⟨-, -, hab'⟩ := hab
  obtain ⟨hb, -, hbc'⟩ := hbc
  cases a <;> cases b <;> cases c <;> simp_all [gt] <;> exact le_trans hab' hbc'

theorem AtMost.refl {a : JsNumber} (h : a ≠ .nan) : AtMost a a := by
  refine ⟨h, h, ?_⟩
  cases a <;> simp [gt]

theorem mathMax_eq_nan {a b : JsNumber} : mathMax a b = .nan ↔ a = .nan ∨ b = .nan := by
  unfold mathMax
  split
  · rename_i h
    simp [h]
  · rename_i h
    split
    · exact iff_of_false (not_or.1 h).2 h
    · exact iff_of_false (not_or.1 h).1 h

theorem atMost_mathMax {a b : JsNumber} (ha : a ≠ .nan) (hb : b ≠ .nan) :
    AtMost a (mathMax a b) := by
  refine ⟨ha, fun h => (mathMax_eq_nan.1 h).elim ha hb, ?_⟩
  unfold mathMax
  rw [if_neg (not_or.2 ⟨ha, hb⟩)]
  split
  · rename_i h
    rcases h with h | ⟨rfl, rfl⟩
    · cases a <;> cases b <;> simp_all [gt] <;> exact h.le
    · simp [gt]
  · exact (AtMost.refl ha).2.2

end JsNumber

namespace SessionRegistry

section Step

variable {ι : Type} {config : Config ι} {r : Registry ι} {key : JsString} {call : Call}

theorem get_prune (r : Registry ι) (now : ℤ) (key : JsString) :
    (prune r now).1.sessions.get key = (r.sessions.get key).filter fun s => !s.expired now := by
  cases hget : (prune r now).1.sessions.get key with
  | some s =>
    have hmem := List.mem_filter.1 (JsMap.mem_of_get hget)
    have hbefore : r.sessions.get key = some s := JsMap.get_eq_some_iff.2 hmem.1
    have hlive : (!s.expired now) = true := hmem.2
    rw [hbefore, Option.filter_some, if_pos hlive]
  | none =>
    cases hbefore : r.sessions.get key with
    | none => rfl
    | some s =>
      by_cases hlive : (!s.expired now) = true
      · have hkept : (prune r now).1.sessions.get key = some s :=
          JsMap.get_eq_some_iff.2 (List.mem_filter.2 ⟨JsMap.mem_of_get hbefore, hlive⟩)
        rw [hget] at hkept
        cases hkept
      · rw [Option.filter_some, if_neg hlive]

theorem get_of_prune {now : ℤ} {s : SessionState ι}
    (h : (prune r now).1.sessions.get key = some s) : r.sessions.get key = some s := by
  rw [get_prune] at h
  exact (Option.filter_eq_some_iff.1 h).1

/-- A session lets an attempt resume it, as far as the tokens go. -/
def SessionState.Admits (s : SessionState ι) (attempt : SessionDescriptor) : Prop :=
  attempt.sessionToken = some s.sessionToken ∨ newerAttempt s attempt = true

theorem newerAttempt_iff {s : SessionState ι} {attempt : SessionDescriptor} :
    newerAttempt s attempt = true ↔ ∃ resumeKey token last next,
      s.resumeKey = some resumeKey ∧ attempt.resumeKey = some resumeKey ∧
      s.presentedToken = some token ∧ attempt.sessionToken = some token ∧
      s.resumeAttempt = some last ∧ attempt.resumeAttempt = some next ∧ last < next := by
  constructor
  · intro h
    rw [newerAttempt] at h
    split at h
    case h_1 resumeKey token last next hkey htoken hlast hnext =>
      simp only [Bool.and_eq_true, decide_eq_true_eq] at h
      exact ⟨resumeKey, token, last, next, hkey, h.1.1, htoken, h.1.2, hlast, hnext, h.2⟩
    case h_2 => cases h
  · rintro ⟨resumeKey, token, last, next, hkey, hkey', htoken, htoken', hlast, hnext, hlt⟩
    simp [newerAttempt, hkey, hkey', htoken, htoken', hlast, hnext, hlt]

theorem admits_of_openRefusal {s : SessionState ι} {request : OpenRequest} {sessionId : JsString}
    (h : openRefusal s request sessionId = none) : s.Admits request.session := by
  by_contra hneither
  rw [SessionState.Admits, not_or] at hneither
  have hrevoked : (decide (request.session.sessionToken ≠ some s.sessionToken) &&
      !newerAttempt s request.session) = true := by
    simp [hneither.1, hneither.2]
  rw [openRefusal, if_pos hrevoked] at h
  split at h
  · cases h
  · split at h
    · cases h
    · split at h
      · cases h
      · cases h

/-- A call is an open of a session, and is answered with it. -/
def OpensAs (config : Config ι) (r : Registry ι) (key : JsString) (call : Call)
    (request : OpenRequest) (answer : OpenSessionState) : Prop :=
  ∃ now, call = .openSession now request ∧
    (openSession config r now request).answer = .ok answer ∧
    sessionKey request.space answer.sessionId = key

/-- What an open that is answered with a session leaves of it. -/
structure Opened (config : Config ι) (r : Registry ι) (key : JsString) (request : OpenRequest)
    (answer : OpenSessionState) (after : Registry ι) (s : SessionState ι) : Prop where
  session : ∃ existing drawn, s = openedSession config existing request answer.sessionId drawn ∧
    r.drawn ≤ drawn ∧ drawn + (if existing.isNone then 2 else 1) ≤ after.drawn ∧
    ∀ before, existing = some before → r.sessions.get key = some before ∧
      before.Admits request.session
  token : answer.sessionToken = s.sessionToken

/-- A call that is no open of a session keeps what an open reads, and gives it to nobody. -/
structure Kept (presented : Option JsNumber) (s s' : SessionState ι) : Prop where
  viewEpoch : s'.viewEpoch = s.viewEpoch
  sessionToken : s'.sessionToken = s.sessionToken
  resumeKey : s'.resumeKey = s.resumeKey
  resumeAttempt : s'.resumeAttempt = s.resumeAttempt
  presentedToken : s'.presentedToken = s.presentedToken
  seenSeq : s'.seenSeq = s.seenSeq ∨
    ∃ n, presented = some n ∧ s'.seenSeq = s.seenSeq.mathMax n
  owner : s'.ownerConnectionId = s.ownerConnectionId ∨ s'.ownerConnectionId = none

theorem Kept.refl (presented : Option JsNumber) (s : SessionState ι) : Kept presented s s :=
  ⟨rfl, rfl, rfl, rfl, rfl, .inl rfl, .inl rfl⟩

variable {s' : SessionState ι} {presented : Option JsNumber}

theorem Kept.admits_iff {s : SessionState ι} (h : Kept presented s s') (attempt : SessionDescriptor) :
    s'.Admits attempt ↔ s.Admits attempt := by
  rw [SessionState.Admits, SessionState.Admits, newerAttempt, newerAttempt, h.sessionToken,
    h.resumeKey, h.resumeAttempt, h.presentedToken]

theorem get_modify {f : SessionState ι → SessionState ι} {changed : JsString}
    (h : (modify r changed f).sessions.get key = some s')
    (hf : ∀ s, Kept presented s (f s)) :
    ∃ s, r.sessions.get key = some s ∧ Kept presented s s' := by
  rw [modify] at h
  cases hget : r.sessions.get changed with
  | none =>
    rw [hget] at h
    exact ⟨s', h, Kept.refl _ s'⟩
  | some s =>
    rw [hget] at h
    by_cases hkey : changed = key
    · subst hkey
      simp only [JsMap.get_set_self, Option.some.injEq] at h
      exact ⟨s, hget, h ▸ hf s⟩
    · simp only [JsMap.get_set_other _ hkey] at h
      exact ⟨s', h, Kept.refl _ s'⟩

theorem openSession_cases (config : Config ι) (r : Registry ι) (now : ℤ) (request : OpenRequest)
    (key : JsString)
    (h : (openSession config r now request).registry.sessions.get key = some s') :
    (∃ answer, OpensAs config r key (.openSession now request) request answer ∧
      Opened config r key request answer (openSession config r now request).registry s') ∨
    ((∀ answer, ¬OpensAs config r key (.openSession now request) request answer) ∧
      r.sessions.get key = some s') := by
  rw [openSession] at h
  simp only at h
  split at h
  case h_1 refusal hrefusal =>
    refine .inr ⟨?_, get_of_prune h⟩
    rintro answer ⟨now', hcall, hanswer, -⟩
    cases hcall
    rw [openSession] at hanswer
    simp only [hrefusal] at hanswer
    cases hanswer
  case h_2 hadmitted =>
    by_cases hkey : sessionKey request.space
        (request.session.sessionId.getD (config.randomUUID (prune r now).1.drawn)) = key
    · subst hkey
      rw [JsMap.get_set_self, Option.some.injEq] at h
      have hopened : ∃ answer, (openSession config r now request).answer = .ok answer ∧
          answer.sessionId = request.session.sessionId.getD
            (config.randomUUID (prune r now).1.drawn) ∧ answer.sessionToken = s'.sessionToken := by
        rw [openSession]
        simp only [hadmitted]
        exact ⟨_, rfl, rfl, h ▸ rfl⟩
      obtain ⟨answer, hanswer, hid, htoken⟩ := hopened
      refine .inl ⟨answer, ⟨now, rfl, hanswer, by rw [hid]⟩, ?_, htoken⟩
      refine ⟨_, _, by rw [hid]; exact h.symm, ?_, ?_, ?_⟩
      · split
        · exact Nat.le_succ r.drawn
        · exact le_refl r.drawn
      · rw [openSession]
        simp only [hadmitted]
        split <;> split <;> simp_all
      · intro before hbefore
        refine ⟨get_of_prune hbefore, ?_⟩
        rw [hbefore] at hadmitted
        exact admits_of_openRefusal hadmitted
    · rw [JsMap.get_set_other _ hkey] at h
      refine .inr ⟨?_, get_of_prune h⟩
      rintro answer ⟨now', hcall, hanswer, hanswered⟩
      cases hcall
      rw [openSession] at hanswer
      simp only [hadmitted] at hanswer
      cases hanswer
      exact hkey hanswered

/-- Every call opens the session at a key or keeps it. -/
theorem apply_cases (config : Config ι) (r : Registry ι) (call : Call) (key : JsString)
    (h : (apply config r call).sessions.get key = some s') :
    (∃ request answer, OpensAs config r key call request answer ∧
      Opened config r key request answer (apply config r call) s') ∨
    ((∀ request answer, ¬OpensAs config r key call request answer) ∧
      ∃ s, r.sessions.get key = some s ∧ Kept call.seenSeq? s s') := by
  cases call with
  | openSession now request =>
    cases openSession_cases config r now request key h with
    | inl hopens =>
      obtain ⟨answer, hopens, hopened⟩ := hopens
      exact .inl ⟨request, answer, hopens, hopened⟩
    | inr hother =>
      refine .inr ⟨?_, s', hother.2, Kept.refl _ s'⟩
      intro request' answer hopens
      obtain ⟨now', hcall, -⟩ := id hopens
      cases hcall
      exact hother.1 answer hopens
  | get now space sessionId =>
    exact .inr ⟨(by rintro _ _ ⟨_, hcall, _⟩; cases hcall), s', get_of_prune h, Kept.refl _ s'⟩
  | detach now space sessionId owner =>
    refine .inr ⟨(by rintro _ _ ⟨_, hcall, _⟩; cases hcall), ?_⟩
    simp only [apply, detach] at h
    cases hget : r.sessions.get (sessionKey space sessionId) with
    | none =>
      rw [hget] at h
      exact ⟨s', h, Kept.refl _ s'⟩
    | some s =>
      rw [hget] at h
      by_cases howner : s.ownerConnectionId = some owner
      · by_cases hkey : sessionKey space sessionId = key
        · subst hkey
          simp only [if_pos howner, JsMap.get_set_self, Option.some.injEq] at h
          exact ⟨s, hget, h ▸ ⟨rfl, rfl, rfl, rfl, rfl, .inl rfl, .inr rfl⟩⟩
        · simp only [if_pos howner, JsMap.get_set_other _ hkey] at h
          exact ⟨s', h, Kept.refl _ s'⟩
      · simp only [if_neg howner] at h
        exact ⟨s', h, Kept.refl _ s'⟩
  | remove space sessionId =>
    refine .inr ⟨(by rintro _ _ ⟨_, hcall, _⟩; cases hcall), s', ?_, Kept.refl _ s'⟩
    simp only [apply, remove] at h
    split at h
    case isTrue =>
      simp only [JsMap.get_delete] at h
      split at h
      · cases h
      · exact h
    case isFalse => exact h
  | updateSeenSeq now space sessionId seenSeq =>
    refine .inr ⟨(by rintro _ _ ⟨_, hcall, _⟩; cases hcall), ?_⟩
    rw [apply, updateSeenSeq] at h
    obtain ⟨s, hget, hkept⟩ := get_modify h
      fun s => ⟨rfl, rfl, rfl, rfl, rfl, .inr ⟨seenSeq, rfl, rfl⟩, .inl rfl⟩
    exact ⟨s, get_of_prune hget, hkept⟩
  | clearRoutedInterests space sessionId =>
    refine .inr ⟨(by rintro _ _ ⟨_, hcall, _⟩; cases hcall), ?_⟩
    rw [apply, clearRoutedInterests] at h
    exact get_modify h fun s => ⟨rfl, rfl, rfl, rfl, rfl, .inl rfl, .inl rfl⟩
  | admitRouted now space sessionId =>
    refine .inr ⟨(by rintro _ _ ⟨_, hcall, _⟩; cases hcall), ?_⟩
    rw [apply, admitRouted] at h
    obtain ⟨s, hget, hkept⟩ := get_modify h
      fun s => ⟨rfl, rfl, rfl, rfl, rfl, .inl rfl, .inl rfl⟩
    exact ⟨s, get_of_prune hget, hkept⟩

theorem drawn_le_openSession (config : Config ι) (r : Registry ι) (now : ℤ)
    (request : OpenRequest) : r.drawn ≤ (openSession config r now request).registry.drawn := by
  have hdrawn : r.drawn ≤ if request.session.sessionId.isNone then r.drawn + 1 else r.drawn := by
    split
    · exact Nat.le_succ r.drawn
    · exact le_refl r.drawn
  rw [openSession]
  simp only
  split
  case h_1 => exact hdrawn
  case h_2 =>
    have hmore : ∀ (drawn : ℕ) (new : Bool), drawn ≤ if new then drawn + 2 else drawn + 1 := by
      intro drawn new
      cases new <;> simp
    exact hdrawn.trans (hmore _ _)

theorem modify_drawn (r : Registry ι) (changed : JsString)
    (f : SessionState ι → SessionState ι) : (modify r changed f).drawn = r.drawn := by
  rw [modify]
  split <;> rfl

theorem drawn_le_apply (config : Config ι) (r : Registry ι) (call : Call) :
    r.drawn ≤ (apply config r call).drawn := by
  cases call with
  | openSession now request => exact drawn_le_openSession config r now request
  | get now space sessionId => exact le_refl r.drawn
  | detach now space sessionId owner =>
    simp only [apply, detach]
    split
    · exact le_refl r.drawn
    · split <;> exact le_refl r.drawn
  | remove space sessionId =>
    simp only [apply, remove]
    split <;> exact le_refl r.drawn
  | updateSeenSeq now space sessionId seenSeq =>
    rw [apply, updateSeenSeq, modify_drawn]
    exact le_refl r.drawn
  | clearRoutedInterests space sessionId => rw [apply, clearRoutedInterests, modify_drawn]
  | admitRouted now space sessionId =>
    rw [apply, admitRouted, modify_drawn]
    exact le_refl r.drawn

end Step

section Run

variable {ι : Type} {config : Config ι} {calls more : List Call} {key : JsString}

theorem run_concat (config : Config ι) (calls : List Call) (call : Call) :
    run config (calls ++ [call]) = apply config (run config calls) call := by
  rw [run, List.foldl_append, run]
  rfl

theorem drawn_mono (config : Config ι) (calls more : List Call) :
    (run config calls).drawn ≤ (run config (calls ++ more)).drawn := by
  induction more using List.reverseRecOn with
  | nil => rw [List.append_nil]
  | append_singleton more call ih =>
    rw [← List.append_assoc, run_concat]
    exact ih.trans (drawn_le_apply config _ call)

/-- A token that can be known before the identifiers from one on are drawn. -/
def Known (config : Config ι) (drawn upTo : ℕ) (attempt : SessionDescriptor) : Prop :=
  ∀ token, attempt.sessionToken = some token →
    ∀ n, drawn ≤ n → n < upTo → token ≠ config.randomUUID n

/-- The identifiers that a run draws are distinct. -/
def Distinct (config : Config ι) (calls : List Call) : Prop :=
  ∀ m n, m < n → n < (run config calls).drawn → config.randomUUID m ≠ config.randomUUID n

/-- No open of a run presents an identifier before it is drawn. -/
def Unguessed (config : Config ι) (calls : List Call) : Prop :=
  ∀ before now request after, calls = before ++ .openSession now request :: after →
    Known config (run config before).drawn (run config calls).drawn request.session

theorem Distinct.init (h : Distinct config (calls ++ more)) : Distinct config calls :=
  fun m n hlt hn => h m n hlt (hn.trans_le (drawn_mono config calls more))

/-- A session as a later state of one: its epoch stays, what it has seen grows or comes to be `NaN`,
and an attempt that cannot resume it cannot resume it later. -/
structure Follows (config : Config ι) (drawn upTo : ℕ) (s s' : SessionState ι) : Prop where
  viewEpoch : s'.viewEpoch = s.viewEpoch
  seenSeq : s'.seenSeq = .nan ∨ s.seenSeq.AtMost s'.seenSeq
  superseded : ∀ attempt, Known config drawn upTo attempt → ¬s.Admits attempt → ¬s'.Admits attempt

variable {drawn upTo : ℕ} {attempt : SessionDescriptor} {s' : SessionState ι}

theorem Known.mono {drawn' : ℕ} (h : Known config drawn upTo attempt) (hle : drawn ≤ drawn') :
    Known config drawn' upTo attempt :=
  fun token htoken n hn => h token htoken n (hle.trans hn)

theorem Known.anti {upTo' : ℕ}
    (h : Known config drawn upTo' attempt) (hle : upTo ≤ upTo') : Known config drawn upTo attempt :=
  fun token htoken n hn hlt => h token htoken n hn (hlt.trans_le hle)

theorem Follows.trans {drawn' : ℕ} {s s'' : SessionState ι}
    (h : Follows config drawn upTo s s') (h' : Follows config drawn' upTo s' s'')
    (hle : drawn ≤ drawn') : Follows config drawn upTo s s'' where
  viewEpoch := h'.viewEpoch.trans h.viewEpoch
  seenSeq := by
    rcases h'.seenSeq with hnan | hle'
    · exact .inl hnan
    · rcases h.seenSeq with hnan | hle
      · exact absurd hnan hle'.1
      · exact .inr (hle.trans hle')
  superseded attempt hknown hsuperseded :=
    h'.superseded attempt (hknown.mono hle) (h.superseded attempt hknown hsuperseded)

theorem nan_or_atMost_mathMax (a b : JsNumber) : a.mathMax b = .nan ∨ a.AtMost (a.mathMax b) := by
  by_cases hnan : a = .nan ∨ b = .nan
  · exact .inl (JsNumber.mathMax_eq_nan.2 hnan)
  · rw [not_or] at hnan
    exact .inr (JsNumber.atMost_mathMax hnan.1 hnan.2)

theorem Kept.follows {presented : Option JsNumber} {s : SessionState ι} (h : Kept presented s s') :
    Follows config drawn upTo s s' where
  viewEpoch := h.viewEpoch
  seenSeq := by
    rcases h.seenSeq with heq | ⟨n, -, heq⟩
    · rw [heq]
      exact (eq_or_ne s.seenSeq .nan).imp_right JsNumber.AtMost.refl
    · rw [heq]
      exact nan_or_atMost_mathMax _ _
  superseded attempt _ hsuperseded hadmits := hsuperseded ((h.admits_iff attempt).1 hadmits)

/-- An attempt that may resume a session that was just opened is a newer one than the open. -/
theorem openedSession_admits {existing : Option (SessionState ι)} {request : OpenRequest}
    {sessionId : JsString}
    (hknown : Known config drawn upTo attempt) (hdrawn : drawn < upTo)
    (h : (openedSession config existing request sessionId drawn).Admits attempt) :
    newerAttempt (openedSession config existing request sessionId drawn) attempt = true := by
  cases h with
  | inl htoken => exact absurd rfl (hknown _ htoken drawn (le_refl drawn) hdrawn)
  | inr hnewer => exact hnewer

/-- A resume leaves a later state of the session. -/
theorem openedSession_follows {s : SessionState ι} {request : OpenRequest} {sessionId : JsString}
    {before : ℕ} (hadmits : s.Admits request.session) (hle : before ≤ drawn)
    (hdrawn : drawn < upTo) :
    Follows config before upTo s (openedSession config (some s) request sessionId drawn) where
  viewEpoch := rfl
  seenSeq := nan_or_atMost_mathMax _ _
  superseded attempt hknown hsuperseded hlater := by
    have hnewer := openedSession_admits (hknown.mono hle) hdrawn hlater
    obtain ⟨resumeKey, token, last, next, hkey, hkey', htoken, htoken', hlast, hnext, hlt⟩ :=
      newerAttempt_iff.1 hnewer
    simp only [openedSession] at hkey htoken hlast
    -- what the open could present, the attempt presents too
    cases hadmits with
    | inl hcurrent =>
      apply hsuperseded (.inl _)
      rw [htoken', ← hcurrent, htoken]
    | inr hretry =>
      obtain ⟨resumeKey', token', last', next', hk, hk', ht, ht', hl, hn, hlt'⟩ :=
        newerAttempt_iff.1 hretry
      apply hsuperseded (.inr (newerAttempt_iff.2 _))
      rw [hk', Option.some.injEq] at hkey
      rw [ht', Option.some.injEq] at htoken
      rw [hn, Option.some.injEq] at hlast
      subst hkey htoken hlast
      exact ⟨_, _, _, _, hk, hkey', ht, htoken', hl, hnext, hlt'.trans hlt⟩

theorem follows_step {r : Registry ι} {call : Call}
    (h : (apply config r call).sessions.get key = some s')
    (hupTo : (apply config r call).drawn ≤ upTo) :
    (∃ s, r.sessions.get key = some s ∧ Follows config r.drawn upTo s s') ∨
      ∃ n, r.drawn ≤ n ∧ n < upTo ∧ s'.viewEpoch = config.randomUUID n := by
  cases apply_cases config r call key h with
  | inl hopens =>
    obtain ⟨request, answer, -, ⟨existing, drawn, hs', hle, hdrawn, hexisting⟩, -⟩ := hopens
    cases existing with
    | none =>
      simp only [Option.isNone_none, if_true] at hdrawn
      exact .inr ⟨drawn + 1, by omega, by omega, by rw [hs']; rfl⟩
    | some s =>
      simp only [Option.isNone_some, Bool.false_eq_true, if_false] at hdrawn
      obtain ⟨hget, hadmits⟩ := hexisting s rfl
      exact .inl ⟨s, hget, hs' ▸ openedSession_follows hadmits hle (by omega)⟩
  | inr hkept =>
    obtain ⟨-, s, hget, hkept⟩ := hkept
    exact .inl ⟨s, hget, hkept.follows⟩

/-- A session after a run is one before it, in a later state, or is a new one. -/
theorem follows_run (h : (run config (calls ++ more)).sessions.get key = some s')
    (hupTo : (run config (calls ++ more)).drawn ≤ upTo) :
    (∃ s, (run config calls).sessions.get key = some s ∧
      Follows config (run config calls).drawn upTo s s') ∨
      ∃ n, (run config calls).drawn ≤ n ∧ n < upTo ∧ s'.viewEpoch = config.randomUUID n := by
  induction more using List.reverseRecOn generalizing s' with
  | nil =>
    rw [List.append_nil] at h
    exact .inl ⟨s', h, (Kept.refl none s').follows⟩
  | append_singleton more call ih =>
    rw [← List.append_assoc, run_concat] at h hupTo
    have hmore := drawn_mono config calls more
    have hcall := drawn_le_apply config (run config (calls ++ more)) call
    cases follows_step h hupTo with
    | inl hbefore =>
      obtain ⟨t, ht, hfollows⟩ := hbefore
      cases ih ht (hcall.trans hupTo) with
      | inl hstart =>
        obtain ⟨s, hs, hfirst⟩ := hstart
        exact .inl ⟨s, hs, hfirst.trans hfollows hmore⟩
      | inr hnew =>
        obtain ⟨n, hn, hlt, hepoch⟩ := hnew
        exact .inr ⟨n, hn, hlt, hfollows.viewEpoch.trans hepoch⟩
    | inr hnew =>
      obtain ⟨n, hn, hlt, hepoch⟩ := hnew
      exact .inr ⟨n, hmore.trans hn, hlt, hepoch⟩

/-- Every session drew its epoch. -/
theorem viewEpoch_drawn {s : SessionState ι} (h : (run config calls).sessions.get key = some s) :
    ∃ n, n < (run config calls).drawn ∧ s.viewEpoch = config.randomUUID n := by
  have hsplit : (run config ([] ++ calls)).sessions.get key = some s := h
  rcases follows_run hsplit (le_refl _) with ⟨t, ht, -⟩ | ⟨n, -, hlt, hepoch⟩
  · cases ht
  · exact ⟨n, hlt, hepoch⟩

/-- What is found under the epoch of a session is the session. -/
theorem follows_of_viewEpoch {s : SessionState ι} (hdistinct : Distinct config (calls ++ more))
    (hs : (run config calls).sessions.get key = some s)
    (h : (run config (calls ++ more)).sessions.get key = some s')
    (hepoch : s'.viewEpoch = s.viewEpoch) :
    Follows config (run config calls).drawn (run config (calls ++ more)).drawn s s' := by
  cases follows_run h (le_refl _) with
  | inl hbefore =>
    obtain ⟨t, ht, hfollows⟩ := hbefore
    rw [hs, Option.some.injEq] at ht
    exact ht ▸ hfollows
  | inr hnew =>
    obtain ⟨n, hn, hlt, hdrawn⟩ := hnew
    obtain ⟨m, hm, hbefore⟩ := viewEpoch_drawn hs
    rw [hdrawn, hbefore] at hepoch
    exact absurd hepoch.symm (hdistinct m n (by omega) hlt)

end Run

/-- No call presents `NaN` as what its client has seen. -/
def SeenNumbers (calls : List Call) : Prop := ∀ call ∈ calls, call.seenSeq? ≠ some .nan

/-- What a session has seen is a number as long as no call presents another. -/
theorem seenSeq_ne_nan {ι : Type} {config : Config ι} {calls : List Call} {key : JsString}
    {s : SessionState ι} (hnumbers : SeenNumbers calls)
    (h : (run config calls).sessions.get key = some s) : s.seenSeq ≠ .nan := by
  induction calls using List.reverseRecOn generalizing s with
  | nil => cases h
  | append_singleton calls call ih =>
    rw [run_concat] at h
    have hbefore : SeenNumbers calls := fun c hc => hnumbers c (List.mem_append_left _ hc)
    have hcall := hnumbers call (List.mem_append_right _ List.mem_cons_self)
    cases apply_cases config _ call key h with
    | inl hopens =>
      obtain ⟨request, answer, ⟨now, rfl, -⟩, ⟨existing, drawn, rfl, -, -, hexisting⟩, -⟩ := hopens
      intro hnan
      rcases JsNumber.mathMax_eq_nan.1 hnan with hold | hnew
      · cases existing with
        | none => cases hold
        | some before => exact ih hbefore (hexisting before rfl).1 hold
      · cases hseen : request.session.seenSeq with
        | none =>
          rw [hseen] at hnew
          cases hnew
        | some n =>
          rw [hseen, Option.getD_some] at hnew
          exact hcall (hseen.trans (congrArg some hnew))
    | inr hkept =>
      obtain ⟨-, t, ht, hkept⟩ := hkept
      rcases hkept.seenSeq with heq | ⟨n, hpresented, heq⟩
      · rw [heq]
        exact ih hbefore ht
      · rw [heq, ne_eq, JsNumber.mathMax_eq_nan, not_or]
        exact ⟨ih hbefore ht, fun hnan => hcall (hnan ▸ hpresented)⟩

/-- The latest open of a session in a run, with its answer. -/
def LastOpen {ι : Type} (config : Config ι) (calls : List Call) (key : JsString)
    (request : OpenRequest) (answer : OpenSessionState) : Prop :=
  ∃ before call after, calls = before ++ call :: after ∧
    OpensAs config (run config before) key call request answer ∧
    ∀ mid later rest, after = mid ++ later :: rest → ∀ request' answer',
      ¬OpensAs config (run config (before ++ call :: mid)) key later request' answer'

/-- An attempt is newer than an open, under its key, and presents the token that it presented. -/
def NewerThan (last attempt : SessionDescriptor) : Prop :=
  ∃ resumeKey token before next,
    last.resumeKey = some resumeKey ∧ attempt.resumeKey = some resumeKey ∧
    last.sessionToken = some token ∧ attempt.sessionToken = some token ∧
    last.resumeAttempt = some before ∧ attempt.resumeAttempt = some next ∧ before < next

/-- An attempt presents the token that the latest open was answered with, or is newer than it. -/
def MayTake (last : SessionDescriptor) (answer : OpenSessionState) (attempt : SessionDescriptor) :
    Prop :=
  attempt.sessionToken = some answer.sessionToken ∨ NewerThan last attempt

/-- What a session keeps of its latest open. -/
structure Records {ι : Type} (s : SessionState ι) (last : SessionDescriptor)
    (answer : OpenSessionState) : Prop where
  sessionToken : s.sessionToken = answer.sessionToken
  resumeKey : s.resumeKey = last.resumeKey
  resumeAttempt : s.resumeAttempt = last.resumeAttempt
  presentedToken : s.presentedToken = last.sessionToken

section LastOpen

variable {ι : Type} {config : Config ι} {calls more : List Call} {call : Call} {key : JsString}
  {request : OpenRequest} {answer : OpenSessionState}

theorem Records.admits_iff {s : SessionState ι} (h : Records s request.session answer)
    (attempt : SessionDescriptor) :
    s.Admits attempt ↔ MayTake request.session answer attempt := by
  rw [SessionState.Admits, newerAttempt_iff, h.sessionToken, h.resumeKey, h.resumeAttempt,
    h.presentedToken]
  rfl

theorem Records.kept {presented : Option JsNumber} {s s' : SessionState ι}
    (h : Records s request.session answer) (hkept : Kept presented s s') :
    Records s' request.session answer :=
  ⟨hkept.sessionToken.trans h.sessionToken, hkept.resumeKey.trans h.resumeKey,
    hkept.resumeAttempt.trans h.resumeAttempt, hkept.presentedToken.trans h.presentedToken⟩

theorem Opened.records {r after : Registry ι} {s : SessionState ι}
    (h : Opened config r key request answer after s) : Records s request.session answer := by
  obtain ⟨existing, drawn, hs, -⟩ := h.session
  exact ⟨h.token.symm, by rw [hs]; rfl, by rw [hs]; rfl, by rw [hs]; rfl⟩

theorem LastOpen.opens (h : OpensAs config (run config calls) key call request answer) :
    LastOpen config (calls ++ [call]) key request answer := by
  refine ⟨calls, call, [], rfl, h, ?_⟩
  intro mid later rest hnil
  exact absurd hnil.symm (by simp)

theorem LastOpen.keeps (h : LastOpen config calls key request answer)
    (hother : ∀ request answer, ¬OpensAs config (run config calls) key call request answer) :
    LastOpen config (calls ++ [call]) key request answer := by
  obtain ⟨before, opening, after, rfl, hopens, hlast⟩ := h
  refine ⟨before, opening, after ++ [call], by simp, hopens, ?_⟩
  intro mid later rest hsplit
  rcases List.eq_nil_or_concat rest with rfl | ⟨rest, final, rfl⟩
  · obtain ⟨rfl, hfinal⟩ := List.append_inj' hsplit rfl
    cases hfinal
    exact hother
  · have hsplit' : after ++ [call] = (mid ++ later :: rest) ++ [final] := by
      rw [hsplit, List.append_assoc, List.cons_append, List.concat_eq_append]
    exact hlast mid later rest (List.append_inj' hsplit' rfl).1

/-- A session keeps the key, the attempt and the token of its latest open. -/
theorem lastOpen_run {s : SessionState ι} (h : (run config calls).sessions.get key = some s) :
    ∃ request answer, LastOpen config calls key request answer ∧
      Records s request.session answer := by
  induction calls using List.reverseRecOn generalizing s with
  | nil => cases h
  | append_singleton calls call ih =>
    rw [run_concat] at h
    cases apply_cases config _ call key h with
    | inl hopens =>
      obtain ⟨request, answer, hopens, hopened⟩ := hopens
      exact ⟨request, answer, LastOpen.opens hopens, hopened.records⟩
    | inr hkept =>
      obtain ⟨hother, t, ht, hkept⟩ := hkept
      obtain ⟨request, answer, hlast, hrecords⟩ := ih ht
      exact ⟨request, answer, hlast.keeps hother, hrecords.kept hkept⟩

end LastOpen

section Takeover

variable {ι : Type} (config : Config ι) (calls : List Call) (key : JsString) (s : SessionState ι)

/-- A session is attached to another connection by an open of this connection that may take it. -/
def TakenByRight (last : SessionDescriptor) (answer : OpenSessionState) : Prop :=
  ∀ call s', Distinct config (calls ++ [call]) →
    (run config (calls ++ [call])).sessions.get key = some s' → s'.viewEpoch = s.viewEpoch →
    ∀ connection, s'.ownerConnectionId = some connection →
      s'.ownerConnectionId ≠ s.ownerConnectionId →
      ∃ now request, call = .openSession now request ∧ request.ownerConnectionId = connection ∧
        MayTake last answer request.session

/-- An attempt that may not take a session, whose token could be known, never gets it back. -/
def SupersededForGood (last : SessionDescriptor) (answer : OpenSessionState) : Prop :=
  ∀ more now request,
    Distinct config (calls ++ (more ++ [.openSession now request])) →
    Known config (run config calls).drawn
      (run config (calls ++ (more ++ [.openSession now request]))).drawn request.session →
    ¬MayTake last answer request.session →
    ∀ answer', OpensAs config (run config (calls ++ more)) key (.openSession now request) request
        answer' →
      ∀ s', (run config (calls ++ (more ++ [.openSession now request]))).sessions.get key = some s' →
        s'.viewEpoch ≠ s.viewEpoch

variable {config calls key s}

theorem takenByRight {request : OpenRequest} {answer : OpenSessionState}
    (hs : (run config calls).sessions.get key = some s)
    (hrecords : Records s request.session answer) :
    TakenByRight config calls key s request.session answer := by
  intro call s' hdistinct hs' hepoch connection howner hmoved
  rw [run_concat] at hs'
  cases apply_cases config _ call key hs' with
  | inl hopens =>
    obtain ⟨request', answer', ⟨now, hcall, -⟩, ⟨existing, drawn, heq, hle, hdrawn, hexisting⟩, -⟩ :=
      hopens
    refine ⟨now, request', hcall, ?_, ?_⟩
    · rw [heq] at howner
      exact Option.some.inj howner
    · cases existing with
      | none =>
        -- a new session draws an epoch that is not that of this one
        obtain ⟨m, hm, hbefore⟩ := viewEpoch_drawn hs
        rw [hbefore, heq] at hepoch
        simp only [Option.isNone_none, if_true] at hdrawn
        rw [← run_concat] at hdrawn
        exact absurd hepoch.symm (hdistinct m (drawn + 1) (by omega) (by omega))
      | some t =>
        obtain ⟨ht, hadmits⟩ := hexisting t rfl
        rw [hs, Option.some.injEq] at ht
        exact (hrecords.admits_iff _).1 (ht ▸ hadmits)
  | inr hkept =>
    obtain ⟨-, t, ht, hkept⟩ := hkept
    rw [hs, Option.some.injEq] at ht
    subst ht
    cases hkept.owner with
    | inl hsame => exact absurd hsame hmoved
    | inr hnone =>
      rw [hnone] at howner
      cases howner

theorem supersededForGood {request : OpenRequest} {answer : OpenSessionState}
    (hs : (run config calls).sessions.get key = some s)
    (hrecords : Records s request.session answer) :
    SupersededForGood config calls key s request.session answer := by
  intro more now attempt hdistinct hknown hsuperseded answer' hopens s' hs' hepoch
  have hend : calls ++ (more ++ [.openSession now attempt]) =
      (calls ++ more) ++ [.openSession now attempt] := (List.append_assoc _ _ _).symm
  rw [hend] at hdistinct hknown hs'
  have hs'' := hs'
  rw [run_concat] at hs''
  cases apply_cases config _ _ key hs'' with
  | inr hkept => exact hkept.1 attempt answer' hopens
  | inl hopened =>
    obtain ⟨attempt', answer'', ⟨now', hcall, -⟩, ⟨existing, drawn, heq, hle, hdrawn, hexisting⟩, -⟩ :=
      hopened
    cases hcall
    cases existing with
    | none =>
      obtain ⟨m, hm, hbefore⟩ := viewEpoch_drawn hs
      rw [hbefore, heq] at hepoch
      simp only [Option.isNone_none, if_true] at hdrawn
      rw [← run_concat] at hdrawn
      have hmono := drawn_mono config calls more
      exact absurd hepoch.symm (hdistinct m (drawn + 1) (by omega) (by omega))
    | some t =>
      obtain ⟨ht, hadmits⟩ := hexisting t rfl
      have hepoch' : t.viewEpoch = s.viewEpoch := by
        rw [heq] at hepoch
        exact hepoch
      have hmore := drawn_mono config (calls ++ more) [.openSession now attempt]
      have hfollows := follows_of_viewEpoch hdistinct.init hs ht hepoch'
      apply hfollows.superseded _ (hknown.anti hmore) _ hadmits
      exact fun hmay => hsuperseded ((hrecords.admits_iff _).1 hmay)

/-- The token that an open is answered with is drawn by it. -/
theorem OpensAs.token {r : Registry ι} {call : Call} {request : OpenRequest}
    {answer : OpenSessionState} (h : OpensAs config r key call request answer) :
    ∃ n, r.drawn ≤ n ∧ n < (apply config r call).drawn ∧
      answer.sessionToken = config.randomUUID n := by
  have hget : ∃ s, (apply config r call).sessions.get key = some s := by
    obtain ⟨now, rfl, hanswer, hkey⟩ := id h
    rw [apply]
    rw [openSession] at hanswer ⊢
    simp only at hanswer ⊢
    split
    case h_1 refusal hrefusal =>
      rw [hrefusal] at hanswer
      cases hanswer
    case h_2 hadmitted =>
      rw [hadmitted] at hanswer
      cases hanswer
      simp only at hkey
      rw [hkey, JsMap.get_set_self]
      exact ⟨_, rfl⟩
  obtain ⟨s, hget⟩ := hget
  cases apply_cases config r call key hget with
  | inr hkept => exact absurd h (hkept.1 request answer)
  | inl hopens =>
    obtain ⟨request', answer', hopens, ⟨existing, drawn, heq, hle, hdrawn, -⟩, htoken⟩ := hopens
    obtain ⟨now, hcall, hanswer, -⟩ := h
    obtain ⟨now', hcall', hanswer', -⟩ := hopens
    rw [hcall] at hcall'
    cases hcall'
    rw [hanswer] at hanswer'
    cases hanswer'
    refine ⟨drawn, hle, ?_, by rw [htoken, heq]; rfl⟩
    split at hdrawn <;> omega

/-- An open leaves no attempt that presents what it presented and is not newer, itself among them,
that may take the session. -/
theorem LastOpen.supersedes {request : OpenRequest} {answer : OpenSessionState}
    (hunguessed : Unguessed config calls) (h : LastOpen config calls key request answer)
    {attempt : SessionDescriptor} (hpresents : attempt.sessionToken = request.session.sessionToken)
    (hnewer : ¬NewerThan request.session attempt) : ¬MayTake request.session answer attempt := by
  obtain ⟨before, call, after, rfl, hopens, -⟩ := h
  obtain ⟨n, hn, hlt, htoken⟩ := hopens.token
  obtain ⟨now, rfl, -⟩ := hopens
  rintro (hcurrent | hmay)
  · have hmono := drawn_mono config (before ++ [.openSession now request]) after
    rw [run_concat, List.append_assoc, List.singleton_append] at hmono
    rw [hpresents, htoken] at hcurrent
    exact hunguessed before now request after rfl _ hcurrent n hn (hlt.trans_le hmono) rfl
  · exact hnewer hmay

theorem detach_of_not_owner {r : Registry ι} {space sessionId owner : JsString}
    (h : ∀ s, r.sessions.get (sessionKey space sessionId) = some s →
      s.ownerConnectionId ≠ some owner) (now : ℤ) :
    detach config r now space sessionId owner = (r, []) := by
  rw [detach]
  cases hget : r.sessions.get (sessionKey space sessionId) with
  | none => rfl
  | some s =>
    simp only
    rw [if_neg (h s hget)]

/-- In every run a session is taken over by right and for good, a detach by a connection that does
not own it changes nothing, and what it has seen never decreases where no call presents `NaN`. -/
theorem takeover_authorised_final (config : Config ι) (calls : List Call)
    (hunguessed : Unguessed config calls) (key : JsString) (s : SessionState ι)
    (hs : (run config calls).sessions.get key = some s) :
    (∃ last answer, LastOpen config calls key last answer ∧
      TakenByRight config calls key s last.session answer ∧
      SupersededForGood config calls key s last.session answer ∧
      ∀ attempt, attempt.sessionToken = last.session.sessionToken →
        ¬NewerThan last.session attempt → ¬MayTake last.session answer attempt) ∧
    (∀ now space sessionId owner, (∀ t,
        (run config calls).sessions.get (sessionKey space sessionId) = some t →
          t.ownerConnectionId ≠ some owner) →
      detach config (run config calls) now space sessionId owner = (run config calls, [])) ∧
    ∀ more s', Distinct config (calls ++ more) → SeenNumbers (calls ++ more) →
      (run config (calls ++ more)).sessions.get key = some s' → s'.viewEpoch = s.viewEpoch →
      s.seenSeq.AtMost s'.seenSeq := by
  obtain ⟨last, answer, hlast, hrecords⟩ := lastOpen_run hs
  refine ⟨⟨last, answer, hlast, takenByRight hs hrecords, supersededForGood hs hrecords, ?_⟩, ?_, ?_⟩
  · intro attempt hpresents hnewer
    exact hlast.supersedes hunguessed hpresents hnewer
  · intro now space sessionId owner hother
    exact detach_of_not_owner hother now
  · intro more s' hdistinct hnumbers hs' hepoch
    exact (follows_of_viewEpoch hdistinct hs hs' hepoch).seenSeq.resolve_left
      (seenSeq_ne_nan hnumbers hs')

/-- Identifiers that are told apart by their length. -/
def countedIdentifiers : Config Unit := ⟨30000, fun n => ⟨List.replicate (n + 1) 48⟩, (), id⟩

theorem countedIdentifiers_ne {m n : ℕ} (h : m ≠ n) :
    countedIdentifiers.randomUUID m ≠ countedIdentifiers.randomUUID n := by
  intro heq
  have hlength := congrArg (fun s : JsString => s.units.length) heq
  simp only [countedIdentifiers, List.length_replicate] at hlength
  omega

def firstOpen : OpenRequest :=
  ⟨"did:key:space", ⟨none, none, none, false, none, some (.finite 3), none, some "key", some 1, none,
    none⟩, 0, "first", some "did:key:alice", none, false, false, none⟩

/-- An attempt of the key to resume the session under the token that its first open drew. -/
def resumeOf (attempt : ℤ) (connection : JsString) : OpenRequest :=
  { firstOpen with
    session := { firstOpen.session with
      sessionId := some "0"
      sessionToken := some "00"
      resumeAttempt := some attempt }
    ownerConnectionId := connection }

/-- The session is opened and resumed on another connection, whose answer is lost. -/
def resumedCalls : List Call :=
  [.openSession 0 firstOpen, .openSession 1 (resumeOf 2 "second")]

theorem takeover_of_lost_answer :
    let key := sessionKey "did:key:space" "0"
    let retry := Call.openSession 2 (resumeOf 3 "third")
    ∃ s s' last answer, (run countedIdentifiers resumedCalls).sessions.get key = some s ∧
      (run countedIdentifiers (resumedCalls ++ [retry])).sessions.get key = some s' ∧
      s.ownerConnectionId = some "second" ∧ s'.ownerConnectionId = some "third" ∧
      LastOpen countedIdentifiers resumedCalls key last answer ∧
      MayTake last.session answer (resumeOf 3 "third").session ∧
      SupersededForGood countedIdentifiers resumedCalls key s last.session answer ∧
      s.seenSeq.AtMost s'.seenSeq := by
  intro key retry
  have hdistinct : Distinct countedIdentifiers (resumedCalls ++ [retry]) :=
    fun m n hlt _ => countedIdentifiers_ne hlt.ne
  have hunguessed : Unguessed countedIdentifiers resumedCalls := by
    intro before now request after hsplit token htoken
    rcases before with _ | ⟨first, _ | ⟨second, before⟩⟩
    · obtain ⟨-, rfl⟩ := Call.openSession.inj (List.cons.inj hsplit).1
      cases htoken
    · obtain ⟨rfl, hrest⟩ := List.cons.inj hsplit
      obtain ⟨-, rfl⟩ := Call.openSession.inj (List.cons.inj hrest).1
      -- The token is the second identifier; the first open has drawn three.
      obtain rfl := Option.some.inj htoken
      intro n hn _
      have hdrawn : (run countedIdentifiers [.openSession 0 firstOpen]).drawn = 3 := rfl
      rw [hdrawn] at hn
      exact countedIdentifiers_ne (m := 1) (by omega)
    · have hlength := congrArg List.length hsplit
      simp only [resumedCalls, List.length_cons, List.length_nil, List.length_append] at hlength
      omega
  have hs : (run countedIdentifiers resumedCalls).sessions.get key = some
      (openedSession countedIdentifiers (some (openedSession countedIdentifiers none firstOpen "0" 1))
        (resumeOf 2 "second") "0" 3) := rfl
  have hs' : (run countedIdentifiers (resumedCalls ++ [retry])).sessions.get key = some
      (openedSession countedIdentifiers (some (openedSession countedIdentifiers
        (some (openedSession countedIdentifiers none firstOpen "0" 1)) (resumeOf 2 "second") "0" 3))
        (resumeOf 3 "third") "0" 4) := rfl
  obtain ⟨⟨last, answer, hlast, hright, hfinal, -⟩, -, hseen⟩ := takeover_authorised_final
    countedIdentifiers resumedCalls hunguessed key _ hs
  obtain ⟨now, request, hcall, -, hmay⟩ := hright retry _ hdistinct hs' rfl "third" rfl (by decide)
  obtain ⟨rfl, rfl⟩ := Call.openSession.inj hcall
  exact ⟨_, _, last, answer, hs, hs', rfl, rfl, hlast, hmay, hfinal,
    hseen [retry] _ hdistinct (by unfold SeenNumbers; decide) hs' rfl⟩

/-- A client that says it has seen `NaN` leaves the session with it. -/
theorem seen_nan_decreases :
    let key := sessionKey "did:key:space" "0"
    let before := [.openSession 0 firstOpen, .updateSeenSeq 1 "did:key:space" "0" (.finite 7)]
    let after := before ++ [.updateSeenSeq 2 "did:key:space" "0" .nan]
    Distinct countedIdentifiers after ∧ Unguessed countedIdentifiers after ∧
    ∃ s s', (run countedIdentifiers before).sessions.get key = some s ∧
      (run countedIdentifiers after).sessions.get key = some s' ∧ s'.viewEpoch = s.viewEpoch ∧
      s.seenSeq = .finite 7 ∧ s'.seenSeq = .nan ∧ ¬s.seenSeq.AtMost s'.seenSeq := by
  intro key before after
  have hunguessed : Unguessed countedIdentifiers after := by
    intro earlier now request later hsplit token htoken
    have hmem : Call.openSession now request ∈ after :=
      hsplit ▸ List.mem_append_right _ List.mem_cons_self
    simp only [after, before, List.cons_append, List.nil_append, List.mem_cons, reduceCtorEq,
      List.not_mem_nil, or_false, Call.openSession.injEq] at hmem
    rw [hmem.2] at htoken
    cases htoken
  have hseven : JsNumber.mathMax (.mathMax (.finite 0) (.finite 3)) (.finite 7) = .finite 7 := by
    decide +kernel
  exact ⟨fun m n hlt _ => countedIdentifiers_ne hlt.ne, hunguessed, _, _, rfl, rfl, rfl, hseven,
    rfl, fun hle => hle.2.1 rfl⟩

end Takeover

end SessionRegistry
