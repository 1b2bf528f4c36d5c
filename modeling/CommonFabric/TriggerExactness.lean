import CommonFabric.ReactiveDependencies
import CommonFabric.Checked
import Mathlib.Data.List.TakeWhile

/-!
# Triggering is exact

The stack that the walk shares between paths holds, along the current path, what following
that path from the root finds. So each path is judged as if it were walked alone, and an
action is triggered at the first of its paths, from the last one on, that is judged changed.
-/

namespace Scheduler

namespace Host

variable (host : Host)

/-- Following a path by property reads: how many components lead on, and what is found there. -/
def follow : Property host.Member → List JsString → Except EngineError (Nat × Property host.Member)
  | x, [] => .ok (0, x)
  | x, key :: rest =>
    if host.keyable x then do
      let y ← host.get x key
      let r ← follow y rest
      .ok (r.1 + 1, r.2)
    else .ok (0, x)

variable {host}

theorem follow_cons (x : Property host.Member) (key : JsString) (rest : List JsString) :
    host.follow x (key :: rest) =
      if host.keyable x then do
        let y ← host.get x key
        let r ← host.follow y rest
        .ok (r.1 + 1, r.2)
      else .ok (0, x) := rfl

theorem follow_le {x y : Property host.Member} {path : List JsString} {n : Nat}
    (h : host.follow x path = .ok (n, y)) : n ≤ path.length := by
  induction path generalizing x n with
  | nil =>
    obtain ⟨rfl, rfl⟩ := Prod.mk.inj (Except.ok.inj h)
    exact Nat.le_refl _
  | cons key rest ih =>
    rw [follow_cons] at h
    split at h
    · obtain ⟨z, _, h⟩ := Except.bind_ok_iff.1 h
      obtain ⟨⟨m, u⟩, hr, h⟩ := Except.bind_ok_iff.1 h
      obtain ⟨rfl, rfl⟩ := Prod.mk.inj (Except.ok.inj h)
      exact Nat.succ_le_succ (ih hr)
    · obtain ⟨rfl, rfl⟩ := Prod.mk.inj (Except.ok.inj h)
      exact Nat.zero_le _

/-- Where a path stops short, it stops at something that is not key-able. -/
theorem follow_short {x y : Property host.Member} {path : List JsString} {n : Nat}
    (h : host.follow x path = .ok (n, y)) (hn : n < path.length) :
    host.follow x (path.take n) = .ok (n, y) ∧ host.keyable y = false := by
  induction path generalizing x n with
  | nil => exact absurd hn (Nat.not_lt_zero _)
  | cons key rest ih =>
    rw [follow_cons] at h
    split at h
    case isTrue hx =>
      obtain ⟨z, hz, h⟩ := Except.bind_ok_iff.1 h
      obtain ⟨⟨m, u⟩, hr, h⟩ := Except.bind_ok_iff.1 h
      obtain ⟨rfl, rfl⟩ := Prod.mk.inj (Except.ok.inj h)
      obtain ⟨htake, hu⟩ := ih hr (Nat.lt_of_succ_lt_succ hn)
      refine ⟨?_, hu⟩
      rw [List.take_succ_cons, follow_cons, if_pos hx, hz, Except.ok_bind, htake]
      rfl
    case isFalse hx =>
      obtain ⟨rfl, rfl⟩ := Prod.mk.inj (Except.ok.inj h)
      exact ⟨rfl, Bool.eq_false_iff.2 hx⟩

theorem follow_append_error {x : Property host.Member} {path : List JsString} {e : EngineError}
    (h : host.follow x path = .error e) (rest : List JsString) :
    ∃ e', host.follow x (path ++ rest) = .error e' := by
  induction path generalizing x e with
  | nil => cases h
  | cons key path ih =>
    rw [follow_cons] at h
    rw [List.cons_append, follow_cons]
    split at h
    case isTrue hx =>
      rw [if_pos hx]
      cases hy : host.get x key with
      | error e' => exact ⟨e', rfl⟩
      | ok y =>
        rw [hy, Except.ok_bind] at h
        cases hr : host.follow y path with
        | error e' =>
          obtain ⟨e'', he⟩ := ih hr
          exact ⟨e'', by rw [Except.ok_bind, he, Except.error_bind]⟩
        | ok r =>
          rw [hr] at h
          cases h
    case isFalse hx => cases h

/-- One component more. -/
theorem follow_concat (x : Property host.Member) (path : List JsString) (key : JsString) :
    host.follow x (path ++ [key]) = (do
      let r ← host.follow x path
      if r.1 = path.length ∧ host.keyable r.2 = true then do
        let y ← host.get r.2 key
        .ok (r.1 + 1, y)
      else .ok r) := by
  induction path generalizing x with
  | nil =>
    rw [List.nil_append, follow_cons]
    by_cases hx : host.keyable x = true
    · simp [follow, hx]
    · simp [follow, hx]
  | cons k path ih =>
    rw [List.cons_append, follow_cons, follow_cons]
    by_cases hx : host.keyable x = true
    · rw [if_pos hx, if_pos hx]
      cases hy : host.get x k with
      | error e => rfl
      | ok y =>
        rw [Except.ok_bind, Except.ok_bind, ih]
        cases hr : host.follow y path with
        | error e => rfl
        | ok r =>
          simp only [Except.ok_bind, List.length_cons, Nat.add_right_cancel_iff]
          split
          · cases host.get r.2 key <;> rfl
          · rfl
    · rw [if_neg hx, if_neg hx]
      simp
end Host

/-- Along every prefix of a path, the descent holds what following that prefix finds, and
its marker is the last position that is key-able. -/
def Traced {host : Host} (v : FabricValue) (path : List JsString) (d : Descent host) : Prop :=
  ∀ q, q <+: path → ∃ n x, host.follow (.value v) q = .ok (n, x) ∧
    ((q.length : Int) ≤ d.lastObject + 1 ↔ n = q.length) ∧
    (n = q.length → d.values q.length = x ∧
      ((q.length : Int) ≤ d.lastObject ↔ host.keyable x = true))

section
variable {host : Host} {v : FabricValue} {path : List JsString} {d : Descent host}

theorem Traced.of_prefix {q : List JsString} (h : Traced v path d) (hq : q <+: path) :
    Traced v q d := fun p hp => h p (hp.trans hq)

theorem traced_start : Traced v [] (Descent.start v : Descent host) := by
  intro q hq
  obtain rfl := List.prefix_nil.1 hq
  refine ⟨0, .value v, rfl, ?_, fun _ => ⟨rfl, ?_⟩⟩
  · simp only [Descent.start, List.length_nil]
    split <;> simp
  · simp only [Descent.start, List.length_nil]
    split
    case isTrue hkey => simpa using hkey
    case isFalse hkey => simpa using hkey

theorem traced_step {d' : Descent host} {key : JsString} (h : Traced v path d)
    (hs : d.step key path.length = .ok d') : Traced v (path ++ [key]) d' := by
  obtain ⟨n, x, hfollow, hreach, hvalue⟩ := h path List.prefix_rfl
  intro q hq
  rw [Descent.step] at hs
  split at hs
  case isTrue hlast =>
    obtain ⟨y, hy, hs⟩ := Except.bind_ok_iff.1 hs
    obtain rfl := Except.ok.inj hs
    have hn : n = path.length := hreach.1 (by omega)
    obtain ⟨hx, hkey⟩ := hvalue hn
    rcases List.prefix_concat_iff.1 hq with rfl | hq
    · refine ⟨n + 1, y, ?_, ?_, fun _ => ⟨?_, ?_⟩⟩
      · rw [Host.follow_concat, hfollow, Except.ok_bind, if_pos ⟨hn, hkey.1 hlast⟩, ← hx, hy]
        rfl
      · simp only [List.length_append, List.length_cons, List.length_nil]
        split <;> omega
      · simp [Function.update_self]
      · simp only [List.length_append, List.length_cons, List.length_nil]
        split
        · simpa
        · simp only [*]; simp
    · have hle := hq.length_le
      obtain ⟨m, z, hfollow', hreach', hvalue'⟩ := h q hq
      dsimp only
      refine ⟨m, z, hfollow', ?_, fun hm => ⟨?_, ?_⟩⟩
      · split <;> omega
      · rw [Function.update_of_ne (by omega)]
        exact (hvalue' hm).1
      · rw [← (hvalue' hm).2]
        split <;> omega
  case isFalse hlast =>
    obtain rfl := Except.ok.inj hs
    rcases List.prefix_concat_iff.1 hq with rfl | hq
    · have hstop : ¬(n = path.length ∧ host.keyable x = true) := fun hk =>
        hlast ((hvalue hk.1).2.2 hk.2)
      have hle := Host.follow_le hfollow
      refine ⟨n, x, ?_, ?_, fun hn => ?_⟩
      · rw [Host.follow_concat, hfollow, Except.ok_bind, if_neg hstop]
      · simp only [List.length_append, List.length_cons, List.length_nil]
        omega
      · simp only [List.length_append, List.length_cons, List.length_nil] at hn
        omega
    · exact h q hq

theorem step_error {key : JsString} {e : EngineError} (h : Traced v path d)
    (hs : d.step key path.length = .error e) :
    ∃ e', host.follow (.value v) (path ++ [key]) = .error e' := by
  obtain ⟨n, x, hfollow, hreach, hvalue⟩ := h path List.prefix_rfl
  rw [Descent.step] at hs
  split at hs
  case isTrue hlast =>
    have hn : n = path.length := hreach.1 (by omega)
    obtain ⟨hx, hkey⟩ := hvalue hn
    cases hy : host.get (d.values path.length) key with
    | ok y =>
      rw [hy] at hs
      cases hs
    | error e' =>
      refine ⟨e', ?_⟩
      rw [Host.follow_concat, hfollow, Except.ok_bind, if_pos ⟨hn, hkey.1 hlast⟩, ← hx, hy]
      rfl
  case isFalse hlast => cases hs

/-- Where the path stops short, the marker says how far it leads. -/
theorem Traced.lastObject_eq {n : Nat} {x : Property host.Member} (h : Traced v path d)
    (hfollow : host.follow (.value v) path = .ok (n, x)) (hn : n < path.length) :
    d.lastObject + 1 = n := by
  obtain ⟨htake, hx⟩ := Host.follow_short hfollow hn
  have hlen : (path.take n).length = n := List.length_take_of_le (Nat.le_of_lt hn)
  obtain ⟨m, y, hfollow', hreach, hvalue⟩ := h (path.take n) (List.take_prefix n path)
  rw [htake] at hfollow'
  obtain ⟨rfl, rfl⟩ := Prod.mk.inj (Except.ok.inj hfollow')
  rw [hlen] at hreach hvalue
  have hreached := hreach.2 rfl
  have hstop : ¬((n : Int) ≤ d.lastObject) := fun hle => by
    rw [(hvalue rfl).2.1 hle] at hx
    cases hx
  omega
end

/-- What the walk answers of a path when it is walked alone. -/
def judge (c : Comparison) (before after : Property c.host.Member) (path : List JsString) :
    Except EngineError Bool := do
  let (n, x) ← c.host.follow before path
  let (m, y) ← c.host.follow after path
  if n = path.length ∧ m = path.length then do
    let same ← c.same x y
    .ok (!same)
  else .ok (n ≠ m)

theorem judge_error_of_follow {c : Comparison} {before after : Property c.host.Member}
    {path : List JsString} (h : (∃ e, c.host.follow before path = .error e) ∨
      ∃ e, c.host.follow after path = .error e) : ∃ e, judge c before after path = .error e := by
  rw [judge]
  cases hb : c.host.follow before path with
  | error e => exact ⟨e, rfl⟩
  | ok r =>
    rcases h with ⟨e, he⟩ | ⟨e, he⟩
    · rw [hb] at he
      cases he
    · exact ⟨e, by rw [he]; rfl⟩

namespace Comparison

variable {c : Comparison}

/-- The walk's stack holds, of both documents, what its current path finds. -/
structure Walk.Traced (w : Walk c) (before after : FabricValue) : Prop where
  before : Scheduler.Traced before w.currentPath w.before
  after : Scheduler.Traced after w.currentPath w.after

theorem walk_traced_start (before after : FabricValue) :
    (Walk.start before after : Walk c).Traced before after :=
  ⟨traced_start, traced_start⟩

/-- Both documents, one component on. -/
def stepBoth (s : Descent c.host × Descent c.host) (k : JsString × Nat) :
    Except EngineError (Descent c.host × Descent c.host) := do
  let before ← s.1.step k.1 k.2
  let after ← s.2.step k.1 k.2
  .ok (before, after)

theorem descend_eq (w : Walk c) (targetPath : List JsString) :
    w.descend targetPath = (do
      let s ← (targetPath.zipIdx.drop (commonPrefixLength targetPath w.currentPath)).foldlM
        stepBoth (w.before, w.after)
      .ok ⟨targetPath, s.1, s.2⟩) := rfl

theorem foldlM_stepBoth {before after : FabricValue} (rest : List JsString) :
    ∀ (path : List JsString) (s : Descent c.host × Descent c.host),
      Scheduler.Traced before path s.1 → Scheduler.Traced after path s.2 →
      (∀ s', (rest.zipIdx path.length).foldlM stepBoth s = .ok s' →
        Scheduler.Traced before (path ++ rest) s'.1 ∧
          Scheduler.Traced after (path ++ rest) s'.2) ∧
      (∀ e, (rest.zipIdx path.length).foldlM stepBoth s = .error e →
        ∃ e', judge c (.value before) (.value after) (path ++ rest) = .error e') := by
  induction rest with
  | nil =>
    intro path s hb ha
    rw [List.append_nil]
    refine ⟨fun s' hs => ?_, fun e hs => ?_⟩
    · obtain rfl := Except.ok.inj hs
      exact ⟨hb, ha⟩
    · cases hs
  | cons key rest ih =>
    intro path s hb ha
    rw [List.zipIdx_cons, List.foldlM_cons]
    have happend : path ++ key :: rest = path ++ [key] ++ rest := List.append_cons path key rest
    cases hs₁ : s.1.step key path.length with
    | error e =>
      obtain ⟨e', he⟩ := step_error hb hs₁
      have herror := @judge_error_of_follow c (.value before) (.value after) _
        (.inl (Host.follow_append_error he rest))
      simp only [stepBoth, hs₁, Except.error_bind, happend]
      exact ⟨fun s' hs => (nomatch hs), fun _ _ => herror⟩
    | ok d₁ =>
      cases hs₂ : s.2.step key path.length with
      | error e =>
        obtain ⟨e', he⟩ := step_error ha hs₂
        have herror := @judge_error_of_follow c (.value before) (.value after) _
          (.inr (Host.follow_append_error he rest))
        simp only [stepBoth, hs₁, hs₂, Except.ok_bind, Except.error_bind, happend]
        exact ⟨fun s' hs => (nomatch hs), fun _ _ => herror⟩
      | ok d₂ =>
        have hlen : path.length + 1 = (path ++ [key]).length := by simp
        simp only [stepBoth, hs₁, hs₂, Except.ok_bind, happend, hlen]
        exact ih (path ++ [key]) (d₁, d₂) (traced_step hb hs₁) (traced_step ha hs₂)

theorem take_commonPrefixLength (p q : List JsString) :
    p.take (commonPrefixLength p q) <+: q := by
  induction p, q using commonPrefixLength.induct with
  | case1 a as bs ih => simpa [commonPrefixLength] using ih
  | case2 a as b bs hne => simp [commonPrefixLength, hne]
  | case3 as bs h => simp [commonPrefixLength]

theorem drop_zipIdx (p : List JsString) (n : Nat) :
    p.zipIdx.drop n = (p.drop n).zipIdx (p.take n).length := by
  by_cases hn : n ≤ p.length
  · have h : p.zipIdx = ((p.take n ++ p.drop n)).zipIdx := by rw [List.take_append_drop]
    rw [h, List.zipIdx_append, List.drop_left' (by simp [hn])]
    simp
  · simp [List.drop_eq_nil_of_le (Nat.le_of_not_le hn)]
    omega

/-- Going on to the next path is as following it from the root. -/
theorem descend_traced {w : Walk c} {before after : FabricValue} (h : w.Traced before after)
    (targetPath : List JsString) :
    (∀ w', w.descend targetPath = .ok w' → w'.currentPath = targetPath ∧ w'.Traced before after) ∧
      (∀ e, w.descend targetPath = .error e →
        ∃ e', judge c (.value before) (.value after) targetPath = .error e') := by
  have hprefix := take_commonPrefixLength targetPath w.currentPath
  obtain ⟨hok, herror⟩ := foldlM_stepBoth (targetPath.drop (commonPrefixLength targetPath w.currentPath))
    (targetPath.take (commonPrefixLength targetPath w.currentPath)) (w.before, w.after)
    (h.before.of_prefix hprefix) (h.after.of_prefix hprefix)
  rw [List.take_append_drop] at hok herror
  rw [descend_eq, drop_zipIdx]
  constructor
  · intro w' hw
    obtain ⟨s, hs, hw⟩ := Except.bind_ok_iff.1 hw
    obtain rfl := Except.ok.inj hw
    exact ⟨rfl, (hok s hs).1, (hok s hs).2⟩
  · intro e hw
    cases hs : ((targetPath.drop (commonPrefixLength targetPath w.currentPath)).zipIdx
      (targetPath.take (commonPrefixLength targetPath w.currentPath)).length).foldlM stepBoth
        (w.before, w.after) with
    | error e' => exact herror e' hs
    | ok s =>
      rw [hs] at hw
      cases hw

theorem hasChanged_eq {w : Walk c} {before after : FabricValue} (h : w.Traced before after) :
    w.hasChanged = judge c (.value before) (.value after) w.currentPath := by
  obtain ⟨n, x, hx, hreachx, hvaluex⟩ := h.before w.currentPath List.prefix_rfl
  obtain ⟨m, y, hy, hreachy, hvaluey⟩ := h.after w.currentPath List.prefix_rfl
  have hn := Host.follow_le hx
  have hm := Host.follow_le hy
  have hjudge : judge c (.value before) (.value after) w.currentPath =
      if n = w.currentPath.length ∧ m = w.currentPath.length then do
        let same ← c.same x y
        .ok (!same)
      else .ok (n ≠ m) := by
    rw [judge, hx, hy]
    rfl
  rw [hjudge, Walk.hasChanged]
  by_cases hbefore : n = w.currentPath.length <;> by_cases hafter : m = w.currentPath.length
  · simp only [Descent.canReach, hreachx.2 hbefore, hreachy.2 hafter, decide_true, Bool.and_true,
      if_true, hbefore, hafter, and_self, (hvaluex hbefore).1, (hvaluey hafter).1]
  · have hstop : ¬((w.currentPath.length : Int) ≤ w.after.lastObject + 1) := mt hreachy.1 hafter
    simp only [Descent.canReach, hreachx.2 hbefore, hstop, hbefore, hafter]
    simp [Ne.symm hafter]
  · have hstop : ¬((w.currentPath.length : Int) ≤ w.before.lastObject + 1) := mt hreachx.1 hbefore
    simp only [Descent.canReach, hreachy.2 hafter, hstop, hbefore, hafter]
    simp [hbefore]
  · have hstopx : ¬((w.currentPath.length : Int) ≤ w.before.lastObject + 1) := mt hreachx.1 hbefore
    have hstopy : ¬((w.currentPath.length : Int) ≤ w.after.lastObject + 1) := mt hreachy.1 hafter
    have hlastx := h.before.lastObject_eq hx (by omega)
    have hlasty := h.after.lastObject_eq hy (by omega)
    have hiff : w.before.lastObject ≠ w.after.lastObject ↔ n ≠ m := by omega
    simp only [Descent.canReach, hstopx, hstopy, hbefore, hafter]
    simp [hiff]

end Comparison

/-- The first of the paths that is judged changed. -/
def scanPaths (judged : List JsString → Except EngineError Bool) :
    List (List JsString) → Except EngineError (Option (List JsString))
  | [] => .ok none
  | path :: later => do
    let changed ← judged path
    if changed then .ok (some path) else scanPaths judged later

section
variable {Action : Type} {judged : List JsString → Except EngineError Bool}

variable (judged) in
/-- The trigger that scanning the paths of an action comes to. -/
def triggerOf (action : Action) (paths : List (List JsString)) : Option (ActionTrigger Action) :=
  match scanPaths judged paths with
  | .ok (some path) => some ⟨action, path⟩
  | _ => none

namespace Subscriber

variable (judged) in
def scanned (s : Subscriber Action) : Except EngineError (Option (List JsString)) :=
  scanPaths judged (s.path :: s.later)

variable (judged) in
def trigger (s : Subscriber Action) : Option (ActionTrigger Action) :=
  triggerOf judged s.action (s.path :: s.later)

theorem scanned_of_changed {s : Subscriber Action} (h : judged s.path = .ok true) :
    s.scanned judged = .ok (some s.path) ∧ s.trigger judged = some ⟨s.action, s.path⟩ := by
  have hscan : scanPaths judged (s.path :: s.later) = .ok (some s.path) := by
    rw [scanPaths, h]
    rfl
  exact ⟨hscan, by rw [trigger, triggerOf, hscan]⟩

/-- A path that did not change leaves the subscriber to its later paths. -/
theorem scanned_of_unchanged {s : Subscriber Action} (h : judged s.path = .ok false) :
    s.scanned judged = scanPaths judged s.later ∧
      s.trigger judged = s.next.bind (Subscriber.trigger judged) := by
  have hscan : scanPaths judged (s.path :: s.later) = scanPaths judged s.later := by
    rw [scanPaths, h]
    rfl
  refine ⟨hscan, ?_⟩
  rw [trigger, triggerOf, hscan, next]
  cases s.later <;> rfl

theorem insert_perm (s : Subscriber Action) (subscribers : List (Subscriber Action)) :
    (insert s subscribers).Perm (s :: subscribers) := by
  induction subscribers with
  | nil => exact List.Perm.refl _
  | cons t rest ih =>
    rw [insert]
    split
    · exact List.Perm.refl _
    · exact (ih.cons t).trans (List.Perm.swap s t rest)

theorem foldl_requeue_perm (current subscribers : List (Subscriber Action)) :
    (current.foldl requeue subscribers).Perm (current.filterMap next ++ subscribers) := by
  induction current generalizing subscribers with
  | nil => exact List.Perm.refl _
  | cons s current ih =>
    rw [List.foldl_cons]
    refine (ih (requeue subscribers s)).trans ?_
    rw [requeue, List.filterMap_cons]
    cases s.next with
    | none => exact List.Perm.refl _
    | some s' =>
      exact ((insert_perm s' subscribers).append_left _).trans List.perm_middle

end Subscriber

variable (judged) in
/-- What the walk over a queue comes to: the triggers of all subscribers, or the failure of
one of them. -/
def Walked (subscribers : List (Subscriber Action)) :
    Except EngineError (List (ActionTrigger Action)) → Prop
  | .ok triggered => (∀ s ∈ subscribers, ∃ o, s.scanned judged = .ok o) ∧
      triggered.Perm (subscribers.filterMap (Subscriber.trigger judged))
  | .error _ => ∃ s ∈ subscribers, ∃ e, s.scanned judged = .error e

theorem walked_error {subscribers : List (Subscriber Action)} {s : Subscriber Action}
    (hs : s ∈ subscribers) {e : EngineError} (h : judged s.path = .error e) (e' : EngineError) :
    Walked judged subscribers (.error e') := by
  refine ⟨s, hs, e, ?_⟩
  rw [Subscriber.scanned, scanPaths, h]
  rfl

theorem Walked.of_changed {current rest : List (Subscriber Action)} {path : List JsString}
    (hpath : ∀ s ∈ current, s.path = path) (hchanged : judged path = .ok true)
    {result : Except EngineError (List (ActionTrigger Action))} (h : Walked judged rest result) :
    Walked judged (current ++ rest) (do
      let triggered ← result
      .ok (current.map (fun s => ⟨s.action, path⟩) ++ triggered)) := by
  have hcurrent : ∀ s ∈ current, s.scanned judged = .ok (some path) ∧
      s.trigger judged = some ⟨s.action, path⟩ := by
    intro s hs
    obtain rfl := hpath s hs
    exact Subscriber.scanned_of_changed hchanged
  cases result with
  | error e =>
    obtain ⟨s, hs, herror⟩ := h
    exact ⟨s, List.mem_append_right _ hs, herror⟩
  | ok triggered =>
    refine ⟨fun s hs => ?_, ?_⟩
    · rcases List.mem_append.1 hs with hs | hs
      · exact ⟨some path, (hcurrent s hs).1⟩
      · exact h.1 s hs
    · have hmap : current.filterMap (Subscriber.trigger judged) =
          current.map fun s => ⟨s.action, path⟩ := by
        rw [← List.filterMap_eq_map]
        exact List.filterMap_congr fun s hs => (hcurrent s hs).2
      rw [List.filterMap_append, hmap]
      exact h.2.append_left _

theorem Walked.of_unchanged {current rest : List (Subscriber Action)}
    (hunchanged : ∀ s ∈ current, judged s.path = .ok false)
    {result : Except EngineError (List (ActionTrigger Action))}
    (h : Walked judged (current.foldl Subscriber.requeue rest) result) :
    Walked judged (current ++ rest) result := by
  have hperm := Subscriber.foldl_requeue_perm current rest
  have hnext : ∀ s ∈ current, ∀ s', s.next = some s' →
      s.scanned judged = s'.scanned judged := by
    intro s hs s' hs'
    rw [(Subscriber.scanned_of_unchanged (hunchanged s hs)).1]
    obtain ⟨action, path, later⟩ := s
    cases later with
    | nil => cases hs'
    | cons path' later =>
      obtain rfl := Option.some.inj hs'
      rfl
  cases result with
  | error e =>
    obtain ⟨s', hs', e', herror⟩ := h
    rcases List.mem_append.1 (hperm.mem_iff.1 hs') with hs' | hs'
    · obtain ⟨s, hs, hnext'⟩ := List.mem_filterMap.1 hs'
      exact ⟨s, List.mem_append_left _ hs, e', (hnext s hs s' hnext').trans herror⟩
    · exact ⟨s', List.mem_append_right _ hs', e', herror⟩
  | ok triggered =>
    refine ⟨fun s hs => ?_, ?_⟩
    · rcases List.mem_append.1 hs with hs | hs
      · cases hnext' : s.next with
        | none =>
          refine ⟨none, ?_⟩
          rw [(Subscriber.scanned_of_unchanged (hunchanged s hs)).1]
          obtain ⟨action, path, later⟩ := s
          cases later with
          | nil => rfl
          | cons path' later => cases hnext'
        | some s' =>
          rw [hnext s hs s' hnext']
          exact h.1 s' (hperm.mem_iff.2 (List.mem_append_left _
            (List.mem_filterMap.2 ⟨s, hs, hnext'⟩)))
      · exact h.1 s (hperm.mem_iff.2 (List.mem_append_right _ hs))
    · refine h.2.trans ((hperm.filterMap _).trans ?_)
      rw [List.filterMap_append, List.filterMap_append, List.filterMap_filterMap]
      have hcurrent : current.filterMap (fun s => s.next.bind (Subscriber.trigger judged)) =
          current.filterMap (Subscriber.trigger judged) :=
        List.filterMap_congr fun s hs =>
          (Subscriber.scanned_of_unchanged (hunchanged s hs)).2.symm
      rw [hcurrent]

end

open Comparison Subscriber

/-- The walk over a queue does with each subscriber what scanning its paths alone does. -/
theorem walked_walkSubscribers {Action : Type} {c : Comparison} {before after : FabricValue}
    (n : Nat) : ∀ (w : Walk c) (subscribers : List (Subscriber Action)),
      w.Traced before after → pending subscribers ≤ n →
      Walked (judge c (.value before) (.value after)) subscribers (walkSubscribers w subscribers) := by
  induction n with
  | zero =>
    intro w subscribers hw hn
    cases subscribers with
    | nil =>
      rw [walkSubscribers]
      exact ⟨fun s hs => (by cases hs), List.Perm.refl _⟩
    | cons s subscribers => simp [pending] at hn
  | succ n ih =>
    intro w subscribers hw hn
    cases subscribers with
    | nil =>
      rw [walkSubscribers]
      exact ⟨fun s hs => (by cases hs), List.Perm.refl _⟩
    | cons s subscribers =>
      -- The subscribers pulled in have the first one's path; the others keep their places.
      obtain ⟨hdescend, herror⟩ := descend_traced hw s.path
      have hsplit : s :: subscribers = (s :: subscribers.takeWhile fun t => t.path = s.path) ++
          subscribers.dropWhile fun t => t.path = s.path := by
        rw [List.cons_append, List.takeWhile_append_dropWhile]
      have hcurrent : ∀ t ∈ s :: subscribers.takeWhile fun t => t.path = s.path,
          t.path = s.path := by
        intro t ht
        rcases List.mem_cons.1 ht with rfl | ht
        · rfl
        · simpa using List.mem_takeWhile_imp ht
      have hsum := congrArg pending hsplit
      rw [pending_append] at hsum
      have hsmall := pending_foldl_requeue (s :: subscribers.takeWhile fun t => t.path = s.path)
        (subscribers.dropWhile fun t => t.path = s.path)
      have hpos : 0 < pending (s :: subscribers.takeWhile fun t => t.path = s.path) := by
        simp [pending]
      rw [List.length_cons] at hsmall
      rw [walkSubscribers]
      cases hw' : w.descend s.path with
      | error e =>
        obtain ⟨e', he⟩ := herror e hw'
        exact walked_error List.mem_cons_self he e
      | ok w' =>
        obtain ⟨hpath, hw'⟩ := hdescend w' hw'
        rw [Except.ok_bind, hasChanged_eq hw', hpath]
        cases hjudge : judge c (.value before) (.value after) s.path with
        | error e => exact walked_error List.mem_cons_self hjudge e
        | ok changed =>
          rw [Except.ok_bind, hsplit]
          cases changed with
          | true =>
            rw [if_pos rfl]
            exact Walked.of_changed hcurrent hjudge (ih w' _ hw' (by omega))
          | false =>
            rw [if_neg Bool.false_ne_true]
            exact Walked.of_unchanged (fun t ht => by rw [hcurrent t ht, hjudge])
              (ih w' _ hw' (by omega))

section
variable {Action : Type} {c : Comparison} {before after : FabricValue} {startPath : List JsString}

theorem mapM_subscriberOf {entries : List (Action × List (List JsString))}
    {subscribers : List (Subscriber Action)} (h : entries.mapM subscriberOf = .ok subscribers) :
    entries = subscribers.map fun s => (s.action, s.path :: s.later) := by
  induction entries generalizing subscribers with
  | nil =>
    obtain rfl := Except.ok.inj h
    rfl
  | cons entry entries ih =>
    rw [List.mapM_cons] at h
    obtain ⟨s, hs, h⟩ := Except.bind_ok_iff.1 h
    obtain ⟨rest, hrest, h⟩ := Except.bind_ok_iff.1 h
    obtain rfl := Except.ok.inj h
    obtain ⟨action, paths⟩ := entry
    cases paths with
    | nil => cases hs
    | cons path later =>
      obtain rfl := Except.ok.inj hs
      rw [List.map_cons, ← ih hrest]

theorem mapM_subscriberOf_error {entries : List (Action × List (List JsString))} {e : EngineError}
    (h : entries.mapM subscriberOf = .error e) : ∃ entry ∈ entries, entry.2 = [] := by
  induction entries generalizing e with
  | nil => cases h
  | cons entry entries ih =>
    obtain ⟨action, paths⟩ := entry
    cases paths with
    | nil => exact ⟨_, List.mem_cons_self, rfl⟩
    | cons path later =>
      rw [List.mapM_cons] at h
      cases hrest : entries.mapM subscriberOf with
      | ok rest =>
        rw [hrest] at h
        cases h
      | error e' =>
        obtain ⟨entry, hentry, hnil⟩ := ih hrest
        exact ⟨entry, List.mem_cons_of_mem _ hentry, hnil⟩

/-- The entries that the change can affect, with their paths in the order of the walk. -/
def affected (dependencies : JsMap Action SortedAndCompactPaths) (startPath : List JsString) :
    List (Action × List (List JsString)) :=
  if 0 < startPath.length then
    (dependencies.entries.map fun e => (e.1, candidates startPath e.2)).filter fun e => 0 < e.2.length
  else dependencies.entries.map fun e => (e.1, candidates startPath e.2)

theorem determineActionTriggers_eq (dependencies : JsMap Action SortedAndCompactPaths) :
    determineActionTriggers c dependencies before after startPath = (do
      let subscribers ← (affected dependencies startPath).mapM subscriberOf
      walkSubscribers (Walk.start before after : Walk c)
        (subscribers.insertionSort fun s t => comparePaths t.path s.path ≤ 0)) := by
  rw [determineActionTriggers, affected]

variable {dependencies : JsMap Action SortedAndCompactPaths}

theorem mem_affected
    {entry : Action × List (List JsString)} (h : entry ∈ affected dependencies startPath) :
    ∃ e ∈ dependencies.entries, entry = (e.1, candidates startPath e.2) := by
  rw [affected] at h
  split at h
  · obtain ⟨e, he, rfl⟩ := List.mem_map.1 (List.mem_filter.1 h).1
    exact ⟨e, he, rfl⟩
  · obtain ⟨e, he, rfl⟩ := List.mem_map.1 h
    exact ⟨e, he, rfl⟩

theorem mem_affected_of_ne_nil {e : Action × SortedAndCompactPaths} (he : e ∈ dependencies.entries)
    (hne : candidates startPath e.2 ≠ []) :
    (e.1, candidates startPath e.2) ∈ affected dependencies startPath := by
  rw [affected]
  split
  · exact List.mem_filter.2 ⟨List.mem_map_of_mem he, by simpa [List.length_pos_iff] using hne⟩
  · exact List.mem_map_of_mem he

/-- The triggers of the affected entries are those of all entries: what has no path left
triggers nothing. -/
theorem filterMap_affected (judged : List JsString → Except EngineError Bool)
    (dependencies : JsMap Action SortedAndCompactPaths) :
    (affected dependencies startPath).filterMap (fun e => triggerOf judged e.1 e.2) =
      dependencies.entries.filterMap fun e => triggerOf judged e.1 (candidates startPath e.2) := by
  rw [affected]
  split
  · rw [List.filterMap_filter, List.filterMap_map]
    refine List.filterMap_congr fun e _ => ?_
    cases hpaths : candidates startPath e.2 with
    | nil => simp [hpaths, triggerOf, scanPaths]
    | cons path later => simp [hpaths]
  · rw [List.filterMap_map]
    rfl

/-- A call that returns scans the paths of every entry, and returns what it comes to. -/
theorem determineActionTriggers_ok {triggered : List (ActionTrigger Action)}
    (h : determineActionTriggers c dependencies before after startPath = .ok triggered) :
    (∀ e ∈ dependencies.entries,
      ∃ o, scanPaths (judge c (.value before) (.value after)) (candidates startPath e.2) = .ok o) ∧
    triggered.Perm (dependencies.entries.filterMap fun e =>
      triggerOf (judge c (.value before) (.value after)) e.1 (candidates startPath e.2)) := by
  rw [determineActionTriggers_eq] at h
  obtain ⟨subscribers, hsubscribers, h⟩ := Except.bind_ok_iff.1 h
  have hentries := mapM_subscriberOf hsubscribers
  have hsort := List.perm_insertionSort
    (fun s t : Subscriber Action => comparePaths t.path s.path ≤ 0) subscribers
  have hwalked := walked_walkSubscribers _ (Walk.start before after : Walk c)
    (subscribers.insertionSort fun s t => comparePaths t.path s.path ≤ 0)
    (walk_traced_start before after) (Nat.le_refl _)
  rw [h] at hwalked
  obtain ⟨hscanned, hperm⟩ := hwalked
  constructor
  · intro e he
    cases hpaths : candidates startPath e.2 with
    | nil => exact ⟨none, rfl⟩
    | cons path later =>
      have hmem := mem_affected_of_ne_nil he (by rw [hpaths]; exact List.cons_ne_nil _ _)
      rw [hentries] at hmem
      obtain ⟨s, hs, heq⟩ := List.mem_map.1 hmem
      obtain ⟨o, ho⟩ := hscanned s (hsort.mem_iff.2 hs)
      refine ⟨o, ?_⟩
      rw [← hpaths, ← (Prod.mk.inj heq).2]
      exact ho
  · rw [← filterMap_affected, hentries, List.filterMap_map]
    exact hperm.trans (hsort.filterMap _)

/-- A call fails where scanning the paths of an entry does, or where an entry has none. -/
theorem determineActionTriggers_error {e : EngineError}
    (h : determineActionTriggers c dependencies before after startPath = .error e) :
    (startPath = [] ∧ ∃ entry ∈ dependencies.entries, entry.2 = []) ∨
      ∃ entry ∈ dependencies.entries,
        ∃ e', scanPaths (judge c (.value before) (.value after)) (candidates startPath entry.2) = .error e' := by
  rw [determineActionTriggers_eq] at h
  cases hsubscribers : (affected dependencies startPath).mapM subscriberOf with
  | error e' =>
    obtain ⟨entry, hentry, hnil⟩ := mapM_subscriberOf_error hsubscribers
    obtain ⟨d, hd, rfl⟩ := mem_affected hentry
    refine .inl ?_
    rw [affected] at hentry
    split at hentry
    case isTrue hstart =>
      have hpos := (List.mem_filter.1 hentry).2
      rw [hnil] at hpos
      cases hpos
    case isFalse hstart =>
      refine ⟨List.length_eq_zero_iff.1 (Nat.eq_zero_of_not_pos hstart), d, hd, ?_⟩
      simpa [candidates, hstart] using hnil
  | ok subscribers =>
    rw [hsubscribers, Except.ok_bind] at h
    have hentries := mapM_subscriberOf hsubscribers
    have hwalked := walked_walkSubscribers _ (Walk.start before after : Walk c)
      (subscribers.insertionSort fun s t => comparePaths t.path s.path ≤ 0)
      (walk_traced_start before after) (Nat.le_refl _)
    rw [h] at hwalked
    obtain ⟨s, hs, e', herror⟩ := hwalked
    have hmem := List.mem_map_of_mem (f := fun s : Subscriber Action => (s.action, s.path :: s.later))
      ((List.perm_insertionSort _ _).mem_iff.1 hs)
    rw [← hentries] at hmem
    obtain ⟨d, hd, heq⟩ := mem_affected hmem
    refine .inr ⟨d, hd, e', ?_⟩
    rw [← (Prod.mk.inj heq).2]
    exact herror

/-- An entry without paths fails the call, unless the change starts below the root. -/
theorem determineActionTriggers_of_no_paths
    {entry : Action × SortedAndCompactPaths} (hentry : entry ∈ dependencies.entries)
    (hpaths : entry.2 = []) {triggered : List (ActionTrigger Action)} :
    determineActionTriggers c dependencies before after [] ≠ .ok triggered := by
  intro h
  rw [determineActionTriggers_eq] at h
  obtain ⟨subscribers, hsubscribers, _⟩ := Except.bind_ok_iff.1 h
  have hmem : (entry.1, candidates [] entry.2) ∈ affected dependencies [] :=
    List.mem_map_of_mem (f := fun e : Action × SortedAndCompactPaths => (e.1, candidates [] e.2)) hentry
  rw [mapM_subscriberOf hsubscribers] at hmem
  obtain ⟨s, _, heq⟩ := List.mem_map.1 hmem
  have hnil := (Prod.mk.inj heq).2
  rw [hpaths] at hnil
  cases hnil
end

end Scheduler
