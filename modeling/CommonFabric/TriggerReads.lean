import CommonFabric.TriggerExactness

/-!
# What a reader is told of a change

What a path reads is what it finds through the members that each container has of its own.
The walk reads what a container inherits as well, and a call tells every reader of what
changed for it, and no other, exactly when that makes no difference before the first of an
action's paths that changed.
-/

namespace Scheduler

namespace Host

variable (host : Host)

/-- The value under a key of a container, `undefined` where it has none of its own. -/
def own : FabricValue → JsString → FabricValue
  | .record fields, key => (Fields.get? fields key).getD .undefined
  | .array slots, key =>
    if key = LENGTH then .number (.ofNat slots.length)
    else (child (.array slots) key).getD .undefined
  | .special tag state, key =>
    match host.getInstance tag state key with
    | .ok (.value v) => v
    | _ => .undefined
  | _, _ => .undefined

def followOwn : FabricValue → List JsString → Nat × FabricValue
  | v, [] => (0, v)
  | v, key :: rest =>
    if host.keyable (.value v) then
      let r := followOwn (host.own v key) rest
      (r.1 + 1, r.2)
    else (0, v)

/-- The depth to which a path can be followed. -/
def depthAt (v : FabricValue) (path : List JsString) : Nat := (host.followOwn v path).1

/-- The value at a path, `undefined` where it cannot be reached. -/
def readAt (v : FabricValue) (path : List JsString) : FabricValue :=
  let r := host.followOwn v path
  if r.1 = path.length then r.2 else .undefined

/-- The contract of stored values: no container has a member named `__proto__` of its own,
and a record has each of its keys once. -/
def Stored (v : FabricValue) : Prop :=
  ∀ path, host.own (host.followOwn v path).2 PROTO = .undefined ∧
    ∀ fields, (host.followOwn v path).2 = .record fields → Fields.Ordered fields

variable {host}

theorem followOwn_cons (v : FabricValue) (key : JsString) (rest : List JsString) :
    host.followOwn v (key :: rest) =
      if host.keyable (.value v) then
        ((host.followOwn (host.own v key) rest).1 + 1, (host.followOwn (host.own v key) rest).2)
      else (0, v) := rfl

variable {v : FabricValue} {x : Property host.Member}

theorem Stored.own (h : host.Stored v) (hv : host.keyable (.value v) = true)
    (key : JsString) : host.Stored (host.own v key) := by
  intro path
  have hpath := h (key :: path)
  rw [followOwn_cons, if_pos hv] at hpath
  exact hpath

theorem Stored.own_proto (h : host.Stored v) : host.own v PROTO = .undefined :=
  (h []).1

theorem stored_leaf (hv : host.keyable (.value v) = false) (hproto : host.own v PROTO = .undefined) :
    host.Stored v := by
  intro path
  have hpath : host.followOwn v path = (0, v) := by cases path <;> simp [followOwn, hv]
  rw [hpath]
  refine ⟨hproto, fun fields h => ?_⟩
  subst h
  cases hv

theorem stored_undefined : host.Stored .undefined := stored_leaf rfl rfl

/-- What a read finds of the document's own. -/
def found : Property host.Member → FabricValue
  | .value v => v
  | .member _ => .undefined

/-- A read of a stored document that is no prototype. -/
inductive Plain : Property host.Member → Prop where
  | value {v : FabricValue} (h : host.Stored v) : Plain (.value v)
  | function {m : host.Member} (h : host.isFunction m = true) : Plain (.member m)

theorem Plain.keyable_found (h : Plain x) :
    host.keyable (.value (found x)) = host.keyable x := by
  cases h with
  | value _ => rfl
  | function hm => exact (host.function_not_keyable _ hm).symm

theorem found_get (hv : host.keyable (.value v) = true) {key : JsString}
    (h : host.get (.value v) key = .ok x) : found x = host.own v key := by
  cases v with
  | record fields =>
    obtain rfl := Except.ok.inj h
    rw [own, ownOr.eq_def]
    cases Fields.get? fields key with
    | some v => rfl
    | none => cases host.objectPrototype key <;> rfl
  | array slots =>
    rw [get] at h
    rw [own]
    split at h
    case isTrue hkey =>
      obtain rfl := Except.ok.inj h
      rw [if_pos hkey]
      rfl
    case isFalse hkey =>
      obtain rfl := Except.ok.inj h
      rw [if_neg hkey, ownOr.eq_def]
      cases child (.array slots) key with
      | some v => rfl
      | none => cases host.arrayPrototype key <;> rfl
  | special tag state =>
    rw [get] at h
    rw [own, h]
    cases x <;> rfl
  | _ => simp [keyable] at hv

/-- A read of a container is of a stored value or a function, but for `__proto__`. -/
theorem plain_get (hstored : host.Stored v) (hv : host.keyable (.value v) = true) {key : JsString}
    (h : host.get (.value v) key = .ok x) : Plain x ∨ key = PROTO := by
  cases x with
  | value u =>
    have hfound := found_get hv h
    exact .inl (.value (by rw [show u = host.own v key from hfound]; exact hstored.own hv key))
  | member m =>
    have hm : host.isFunction m = true ∨ key = PROTO := by
      cases v with
      | record fields =>
        rw [get, ownOr.eq_def] at h
        split at h
        · cases h
        · next hinherited =>
          obtain rfl : _ = m := Property.member.inj (Except.ok.inj h)
          exact host.objectPrototype_function key _ hinherited
        · cases h
      | array slots =>
        rw [get, ownOr.eq_def] at h
        split at h
        · cases h
        · split at h
          · cases h
          · next hinherited =>
            obtain rfl : _ = m := Property.member.inj (Except.ok.inj h)
            exact host.arrayPrototype_function key _ hinherited
          · cases h
      | special tag state => exact host.getInstance_function tag state key m h
      | _ => simp [keyable] at hv
    exact hm.imp_left Plain.function

end Host

/-- What a shallow read sees of a value: its kind, its keys, the target of a link, and all
of a leaf. -/
inductive Shape where
  | link (v : FabricValue)
  | record (keys : List JsString)
  | array (present : List Bool)
  | leaf (v : FabricValue)

def contentShape : FabricValue → Shape
  | .record fields => .record (fields.map (·.1))
  | .array slots => .array (slots.map Option.isSome)
  | v => .leaf v

def shapeOf (modern : Bool) (v : FabricValue) : Shape :=
  if isPrimitiveCellLink modern v then .link v else contentShape v

theorem isSome_le_of_slots {xs ys : List (Option FabricValue)} (hlen : xs.length = ys.length)
    (h : ∀ i : Nat, (xs[i]?.join).isSome = true → (ys[i]?.join).isSome = true) :
    xs.countP Option.isSome ≤ ys.countP Option.isSome ∧
      (xs.countP Option.isSome = ys.countP Option.isSome →
        xs.map Option.isSome = ys.map Option.isSome) := by
  induction xs generalizing ys with
  | nil =>
    obtain rfl := List.length_eq_zero_iff.1 hlen.symm
    exact ⟨Nat.le_refl _, fun _ => rfl⟩
  | cons x xs ih =>
    cases ys with
    | nil => cases hlen
    | cons y ys =>
      obtain ⟨hle, heq⟩ := ih (Nat.succ.inj hlen) fun i => by simpa using h (i + 1)
      have hhead : x.isSome = true → y.isSome = true := by simpa using h 0
      cases x with
      | none =>
        cases y with
        | none => simpa using And.intro hle heq
        | some v =>
          simp only [List.countP_cons_of_neg, Option.isSome_none, Bool.false_eq_true,
            not_false_eq_true, List.countP_cons_of_pos, Option.isSome_some]
          exact ⟨by omega, fun h => by omega⟩
      | some u =>
        cases y with
        | none => exact absurd (hhead rfl) (by simp)
        | some v => simpa using And.intro hle heq

theorem shapeOf_eq_of_keysEqual {modern : Bool} {a b : FabricValue}
    (ha : isPrimitiveCellLink modern a = false) (hb : isPrimitiveCellLink modern b = false)
    (hordered : ∀ fields, a = .record fields → Fields.Ordered fields)
    (hordered' : ∀ fields, b = .record fields → Fields.Ordered fields)
    (h : keysEqual a b = true) : shapeOf modern a = shapeOf modern b := by
  simp only [shapeOf, ha, hb, Bool.false_eq_true, if_false]
  cases a with
  | record f =>
    cases b with
    | record g =>
      simp only [keysEqual, Bool.and_eq_true, decide_eq_true_eq, List.all_eq_true] at h
      have hf := hordered f rfl
      have hg := hordered' g rfl
      have hsub : f.map (·.1) ⊆ g.map (·.1) := by
        intro key hkey
        obtain ⟨e, he, rfl⟩ := List.mem_map.1 hkey
        by_contra hnot
        have hnone := Fields.get?_eq_none_iff.2 hnot
        have hsome := h.2 e he
        rw [hnone] at hsome
        cases hsome
      have hperm : (f.map (·.1)).Perm (g.map (·.1)) :=
        (hf.nodup.subperm hsub).perm_of_length_le (by simp [h.1])
      have hkeys : f.map (·.1) = g.map (·.1) :=
        hf.keys.eq_of_mem_iff hg.keys fun key => hperm.mem_iff
      exact congrArg Shape.record hkeys
    | _ => cases h
  | array xs =>
    cases b with
    | array ys =>
      simp only [keysEqual, Bool.and_eq_true, decide_eq_true_eq] at h
      obtain ⟨⟨hcount, hlen⟩, hslots⟩ := h
      have hkeys := (isSome_le_of_slots hlen fun i hi => ?_).2 hcount
      · exact congrArg Shape.array hkeys
      · rw [slotsWithin, List.all_eq_true] at hslots
        cases hx : xs[i]? with
        | none => simp [hx] at hi
        | some x =>
          have hmem := hslots (x, i) (List.mem_zipIdx_iff_getElem?.2 hx)
          simp only [hx, Option.join_some] at hi
          simpa [Option.isNone_iff_eq_none, Option.isSome_iff_ne_none.1 hi] using hmem
    | _ => cases h
  | _ => cases h

theorem keysEqual_self {v : FabricValue} (h : isPlainContainer v = true) : keysEqual v v = true := by
  cases v with
  | record fields =>
    simp only [keysEqual, decide_true, Bool.true_and, List.all_eq_true]
    intro e he
    by_contra hnot
    have hnone := Option.not_isSome_iff_eq_none.1 hnot
    exact Fields.get?_eq_none_iff.1 hnone (List.mem_map_of_mem he)
  | array slots =>
    simp only [keysEqual, decide_true, Bool.true_and, slotsWithin, List.all_eq_true]
    intro x hx
    have hget := List.mem_zipIdx_iff_getElem?.1 hx
    rw [hget]
    cases x.1 <;> simp
  | _ => cases h

namespace Comparison

variable (c : Comparison)

/-- `same`, of two values. -/
def sameValue (a b : FabricValue) : Bool :=
  if c.options.nonRecursive && !isPrimitiveCellLink c.modern a &&
      !isPrimitiveCellLink c.modern b && isPlainContainer a && isPlainContainer b then
    keysEqual a b
  else a = b

/-- Whether a path reads of two documents differently: the values where both can be
reached, else the depths. -/
def changed (before after : FabricValue) (path : List JsString) : Bool :=
  let (n, x) := c.host.followOwn before path
  let (m, y) := c.host.followOwn after path
  if n = path.length ∧ m = path.length then !c.sameValue x y else n ≠ m

/-- The difference of two values that a read tells apart. -/
def Differs (x y : FabricValue) : Prop :=
  if c.options.nonRecursive then shapeOf c.modern x ≠ shapeOf c.modern y else x ≠ y

variable {c}

theorem same_value (a b : FabricValue) : c.same (.value a) (.value b) = .ok (c.sameValue a b) := by
  rw [same, sameValue]
  cases c.options.nonRecursive with
  | false => rfl
  | true =>
    rw [if_pos rfl, Host.shallowEqual]
    simp only [Host.isLink, Host.plain, Host.valueEqual]
    by_cases hlink : isPrimitiveCellLink c.modern a = true ∨ isPrimitiveCellLink c.modern b = true
    · rcases hlink with hlink | hlink <;> simp [hlink]
    · rw [not_or] at hlink
      by_cases hplain : isPlainContainer a = true ∧ isPlainContainer b = true
      · simp [hlink, hplain]
      · simp [hlink, hplain]

theorem sameValue_self (a : FabricValue) : c.sameValue a a = true := by
  rw [sameValue]
  split
  case isTrue h =>
    simp only [Bool.and_eq_true] at h
    exact keysEqual_self h.2
  case isFalse h => simp

theorem sameValue_undefined {a : FabricValue} (h : c.sameValue .undefined a = true ∨
    c.sameValue a .undefined = true) : a = .undefined := by
  rcases h with h | h
  · simpa [sameValue, isPlainContainer, eq_comm] using h
  · simpa [sameValue, isPlainContainer] using h

theorem not_differs_of_sameValue {a b : FabricValue}
    (ha : ∀ fields, a = .record fields → Fields.Ordered fields)
    (hb : ∀ fields, b = .record fields → Fields.Ordered fields)
    (h : c.sameValue a b = true) : ¬c.Differs a b := by
  rw [sameValue] at h
  rw [Differs]
  split at h
  case isTrue hshallow =>
    simp only [Bool.and_eq_true, Bool.not_eq_true'] at hshallow
    obtain ⟨⟨⟨⟨hnonRecursive, hlink⟩, hlink'⟩, _⟩, _⟩ := hshallow
    rw [if_pos hnonRecursive, not_not]
    exact shapeOf_eq_of_keysEqual hlink hlink' ha hb h
  case isFalse _ =>
    obtain rfl : a = b := by simpa using h
    split <;> simp

theorem changed_nil (a b : FabricValue) : c.changed a b [] = !c.sameValue a b := by
  simp [changed, Host.followOwn]

theorem changed_cons (a b : FabricValue) (key : JsString) (rest : List JsString) :
    c.changed a b (key :: rest) =
      if c.host.keyable (.value a) then
        if c.host.keyable (.value b) then
          c.changed (c.host.own a key) (c.host.own b key) rest
        else true
      else c.host.keyable (.value b) := by
  rw [changed, Host.followOwn_cons, Host.followOwn_cons]
  cases ha : c.host.keyable (.value a) <;> cases hb : c.host.keyable (.value b)
  · simp
  · simp
  · simp
  · simp [changed]

theorem changed_undefined (path : List JsString) : c.changed .undefined .undefined path = false := by
  cases path with
  | nil => rw [changed_nil, sameValue_self]; rfl
  | cons key rest => rw [changed_cons]; rfl

theorem judge_nil (x y : Property c.host.Member) :
    judge c x y [] = (do
      let same ← c.same x y
      .ok (!same)) := rfl

variable {x y : Property c.host.Member} {path : List JsString}

theorem judge_cons {key : JsString} {rest : List JsString}
    {answer : Bool} (h : judge c x y (key :: rest) = .ok answer) :
    (c.host.keyable x = true ∧ c.host.keyable y = true ∧ ∃ x' y', c.host.get x key = .ok x' ∧
      c.host.get y key = .ok y' ∧ judge c x' y' rest = .ok answer) ∨
    (c.host.keyable x ≠ c.host.keyable y ∧ answer = true) ∨
    (c.host.keyable x = false ∧ c.host.keyable y = false ∧ answer = false) := by
  rw [judge] at h
  obtain ⟨⟨n, u⟩, hx, h⟩ := Except.bind_ok_iff.1 h
  obtain ⟨⟨m, w⟩, hy, h⟩ := Except.bind_ok_iff.1 h
  rw [Host.follow_cons] at hx hy
  cases hkx : c.host.keyable x with
  | true =>
    rw [hkx, if_pos rfl] at hx
    obtain ⟨x', hx', hx⟩ := Except.bind_ok_iff.1 hx
    obtain ⟨⟨n', u'⟩, hfollowx, hx⟩ := Except.bind_ok_iff.1 hx
    obtain ⟨rfl, rfl⟩ := Prod.mk.inj (Except.ok.inj hx)
    cases hky : c.host.keyable y with
    | true =>
      rw [hky, if_pos rfl] at hy
      obtain ⟨y', hy', hy⟩ := Except.bind_ok_iff.1 hy
      obtain ⟨⟨m', w'⟩, hfollowy, hy⟩ := Except.bind_ok_iff.1 hy
      obtain ⟨rfl, rfl⟩ := Prod.mk.inj (Except.ok.inj hy)
      refine .inl ⟨rfl, rfl, x', y', hx', hy', ?_⟩
      rw [judge, hfollowx, hfollowy]
      simpa using h
    | false =>
      rw [hky] at hy
      obtain ⟨rfl, rfl⟩ := Prod.mk.inj (Except.ok.inj hy)
      refine .inr (.inl ⟨by simp, ?_⟩)
      simpa using h.symm
  | false =>
    rw [hkx] at hx
    obtain ⟨rfl, rfl⟩ := Prod.mk.inj (Except.ok.inj hx)
    cases hky : c.host.keyable y with
    | true =>
      rw [hky, if_pos rfl] at hy
      obtain ⟨y', hy', hy⟩ := Except.bind_ok_iff.1 hy
      obtain ⟨⟨m', w'⟩, hfollowy, hy⟩ := Except.bind_ok_iff.1 hy
      obtain ⟨rfl, rfl⟩ := Prod.mk.inj (Except.ok.inj hy)
      refine .inr (.inl ⟨by simp, ?_⟩)
      simpa using h.symm
    | false =>
      rw [hky] at hy
      obtain ⟨rfl, rfl⟩ := Prod.mk.inj (Except.ok.inj hy)
      refine .inr (.inr ⟨rfl, rfl, ?_⟩)
      simpa using h.symm

/-- With a function on one side, the shallow comparison is the deep one. -/
theorem same_eq_valueEqual {m : c.host.Member} (hm : c.host.isFunction m = true)
    (h : x = .member m ∨ y = .member m) :
    c.same x y = c.host.valueEqual x y := by
  have hplain : c.host.plain (.member m) = false := c.host.function_not_plain m hm
  have hnot : (c.host.plain x && c.host.plain y) = false := by
    rcases h with rfl | rfl <;> simp [hplain]
  rw [same, Host.shallowEqual.eq_def, hnot, if_neg Bool.false_ne_true, ite_self, ite_self]

/-- A function is the same as itself alone. -/
theorem same_function {m : c.host.Member} (hm : c.host.isFunction m = true)
    (hxy : x = .member m ∨ y = .member m)
    (h : c.same x y = .ok true) : x = .member m ∧ y = .member m := by
  rw [same_eq_valueEqual hm hxy] at h
  rcases hxy with rfl | rfl
  · cases y with
    | value v => simp [Host.valueEqual, hm] at h
    | member m' =>
      rw [Host.valueEqual] at h
      split at h
      case isTrue heq => exact ⟨rfl, by rw [heq]⟩
      case isFalse hne => simp [hm] at h
  · cases x with
    | value v =>
      rw [Host.valueEqual, hm] at h
      split at h <;> cases h
    | member m' =>
      rw [Host.valueEqual] at h
      split at h
      case isTrue heq => exact ⟨by rw [heq], rfl⟩
      case isFalse hne => simp [hm] at h

open Host

theorem sameValue_found (hx : Plain x) (hy : Plain y)
    (h : c.same x y = .ok true) : c.sameValue (found x) (found y) = true := by
  cases hx with
  | function hm =>
    obtain ⟨_, rfl⟩ := same_function hm (.inl rfl) h
    exact sameValue_self _
  | value _ =>
    cases hy with
    | function hm =>
      obtain ⟨h, _⟩ := same_function hm (.inr rfl) h
      cases h
    | value _ => exact Except.ok.inj ((same_value _ _).symm.trans h)

theorem found_eq_of_not_same (hx : Plain x) (hy : Plain y)
    (h : c.same x y = .ok false) (hsame : c.sameValue (found x) (found y) = true) :
    found x = found y := by
  cases hx with
  | function hm => exact (sameValue_undefined (.inl hsame)).symm
  | value _ =>
    cases hy with
    | function hm => exact sameValue_undefined (.inr hsame)
    | value _ =>
      rw [same_value] at h
      exact Bool.noConfusion (hsame.symm.trans (Except.ok.inj h))

/-- What a step of both reads finds: reads that are no prototypes, or nothing of either
document's own. -/
theorem plain_or_undefined {a b : FabricValue} (ha : c.host.Stored a) (hb : c.host.Stored b)
    (hka : c.host.keyable (.value a) = true) (hkb : c.host.keyable (.value b) = true)
    {key : JsString} (hx : c.host.get (.value a) key = .ok x)
    (hy : c.host.get (.value b) key = .ok y) :
    (Plain x ∧ Plain y) ∨ (c.host.own a key = .undefined ∧ c.host.own b key = .undefined) := by
  rcases plain_get ha hka hx with hplain | rfl
  · rcases plain_get hb hkb hy with hplain' | rfl
    · exact .inl ⟨hplain, hplain'⟩
    · exact .inr ⟨ha.own_proto, hb.own_proto⟩
  · exact .inr ⟨ha.own_proto, hb.own_proto⟩

/-- What is key-able is a value. -/
theorem Plain.eq_value (hx : Plain x)
    (hk : c.host.keyable x = true) : x = .value (found x) ∧ c.host.Stored (found x) := by
  cases hx with
  | value h => exact ⟨rfl, h⟩
  | function hm =>
    rw [keyable, c.host.function_not_keyable _ hm] at hk
    cases hk

/-- The walk misses no change: what it judges unchanged is. -/
theorem changed_of_judge_false (path : List JsString) : ∀ {x y : Property c.host.Member},
    Plain x → Plain y → judge c x y path = .ok false →
      c.changed (found x) (found y) path = false := by
  induction path with
  | nil =>
    intro x y hx hy h
    rw [judge_nil] at h
    obtain ⟨same, hsame, h⟩ := Except.bind_ok_iff.1 h
    cases same with
    | false => cases h
    | true => rw [changed_nil, sameValue_found hx hy hsame]; rfl
  | cons key rest ih =>
    intro x y hx hy h
    rw [changed_cons, hx.keyable_found, hy.keyable_found]
    rcases judge_cons h with ⟨hkx, hky, x', y', hx', hy', h⟩ | ⟨_, h⟩ | ⟨hkx, hky, _⟩
    · rw [if_pos hkx, if_pos hky]
      obtain ⟨hvx, hsx⟩ := Plain.eq_value hx hkx
      obtain ⟨hvy, hsy⟩ := Plain.eq_value hy hky
      rw [hvx] at hx' hkx
      rw [hvy] at hy' hky
      rcases plain_or_undefined hsx hsy hkx hky hx' hy' with ⟨hpx, hpy⟩ | ⟨hux, huy⟩
      · rw [← found_get hkx hx', ← found_get hky hy']
        exact ih hpx hpy h
      · rw [hux, huy, changed_undefined]
    · cases h
    · rw [hkx, hky]
      rfl

theorem readAt_cons (v : FabricValue) (key : JsString) (rest : List JsString) :
    c.host.readAt v (key :: rest) =
      if c.host.keyable (.value v) then c.host.readAt (c.host.own v key) rest else .undefined := by
  simp only [readAt, followOwn_cons]
  by_cases hk : c.host.keyable (.value v) = true
  · simp [hk]
  · simp [hk]

/-- What the walk judges changed and is not reads the same. -/
theorem readAt_eq_of_judge_true (path : List JsString) : ∀ {x y : Property c.host.Member},
    Plain x → Plain y → judge c x y path = .ok true →
      c.changed (found x) (found y) path = false →
      c.host.readAt (found x) path = c.host.readAt (found y) path := by
  induction path with
  | nil =>
    intro x y hx hy h hchanged
    rw [judge_nil] at h
    obtain ⟨same, hsame, h⟩ := Except.bind_ok_iff.1 h
    rw [changed_nil, Bool.not_eq_false'] at hchanged
    cases same with
    | true => cases h
    | false => exact found_eq_of_not_same hx hy hsame hchanged
  | cons key rest ih =>
    intro x y hx hy h hchanged
    rw [changed_cons, hx.keyable_found, hy.keyable_found] at hchanged
    rw [readAt_cons, readAt_cons, hx.keyable_found, hy.keyable_found]
    rcases judge_cons h with ⟨hkx, hky, x', y', hx', hy', h⟩ | ⟨hne, _⟩ | ⟨_, _, h⟩
    · rw [if_pos hkx, if_pos hky] at hchanged ⊢
      obtain ⟨hvx, hsx⟩ := Plain.eq_value hx hkx
      obtain ⟨hvy, hsy⟩ := Plain.eq_value hy hky
      rw [hvx] at hx' hkx
      rw [hvy] at hy' hky
      rcases plain_or_undefined hsx hsy hkx hky hx' hy' with ⟨hpx, hpy⟩ | ⟨hux, huy⟩
      · rw [← found_get hkx hx', ← found_get hky hy'] at hchanged ⊢
        exact ih hpx hpy h hchanged
      · rw [hux, huy]
    · cases hkx : c.host.keyable x <;> cases hky : c.host.keyable y <;>
        simp [hkx, hky] at hne hchanged
    · cases h

theorem changed_sound {before after : FabricValue} (h : c.changed before after path = true) :
    c.host.readAt before path ≠ c.host.readAt after path ∨
      c.host.depthAt before path ≠ c.host.depthAt after path := by
  by_contra hnot
  rw [not_or, not_not, not_not] at hnot
  obtain ⟨hread, hdepth⟩ := hnot
  rw [depthAt, depthAt] at hdepth
  simp only [readAt, hdepth] at hread
  simp only [changed, hdepth] at h
  split at h
  case isTrue hreach =>
    rw [if_pos hreach.1, if_pos hreach.1] at hread
    rw [hread, sameValue_self] at h
    cases h
  case isFalse _ => simp at h

theorem changed_complete {before after : FabricValue} (hbefore : c.host.Stored before)
    (hafter : c.host.Stored after)
    (h : c.Differs (c.host.readAt before path) (c.host.readAt after path)) :
    c.changed before after path = true := by
  by_contra hnot
  rw [Bool.not_eq_true] at hnot
  refine absurd h ?_
  simp only [changed] at hnot
  simp only [readAt]
  split at hnot
  case isTrue hreach =>
    rw [if_pos hreach.1, if_pos hreach.2]
    rw [Bool.not_eq_false'] at hnot
    exact not_differs_of_sameValue (hbefore path).2 (hafter path).2 hnot
  case isFalse hreach =>
    have hdepth : (c.host.followOwn before path).1 = (c.host.followOwn after path).1 := by
      simpa using hnot
    have hstop : (c.host.followOwn after path).1 ≠ path.length := fun heq =>
      hreach ⟨hdepth.trans heq, heq⟩
    rw [hdepth, if_neg hstop, if_neg hstop]
    exact not_differs_of_sameValue (fun fields h => (nomatch h)) (fun fields h => (nomatch h))
      (sameValue_self _)

theorem depthAt_eq_of_unchanged {before after : FabricValue}
    (h : c.changed before after path = false) :
    c.host.depthAt before path = c.host.depthAt after path := by
  simp only [changed] at h
  split at h
  case isTrue hreach => exact hreach.1.trans hreach.2.symm
  case isFalse _ => exact not_not.1 (of_decide_eq_false h)

end Comparison

section
variable {judged : List JsString → Except EngineError Bool} {changed : List JsString → Bool}

variable {paths : List (List JsString)}

theorem scan_some {path : List JsString}
    (h : scanPaths judged paths = .ok (some path)) :
    ∃ earlier later, paths = earlier ++ path :: later ∧
      judged path = .ok true ∧ ∀ p ∈ earlier, judged p = .ok false := by
  induction paths with
  | nil => cases h
  | cons p paths ih =>
    rw [scanPaths] at h
    obtain ⟨answer, hp, h⟩ := Except.bind_ok_iff.1 h
    cases answer with
    | true =>
      obtain rfl := Option.some.inj (Except.ok.inj h)
      exact ⟨[], paths, rfl, hp, fun _ h => (by cases h)⟩
    | false =>
      obtain ⟨earlier, later, rfl, hpath, hearlier⟩ := ih h
      exact ⟨p :: earlier, later, rfl, hpath, List.forall_mem_cons.2 ⟨hp, hearlier⟩⟩

theorem scan_none (h : scanPaths judged paths = .ok none) :
    ∀ p ∈ paths, judged p = .ok false := by
  induction paths with
  | nil => exact fun _ h => (nomatch h)
  | cons p paths ih =>
    rw [scanPaths] at h
    obtain ⟨answer, hp, h⟩ := Except.bind_ok_iff.1 h
    cases answer with
    | true => cases h
    | false => exact List.forall_mem_cons.2 ⟨hp, ih h⟩

theorem scan_error {e : EngineError}
    (h : scanPaths judged paths = .error e) :
    ∃ earlier path later e', paths = earlier ++ path :: later ∧
      judged path = .error e' ∧ ∀ p ∈ earlier, judged p = .ok false := by
  induction paths with
  | nil => cases h
  | cons p paths ih =>
    rw [scanPaths] at h
    cases hp : judged p with
    | error e' => exact ⟨[], p, paths, e', rfl, hp, fun _ h => (by cases h)⟩
    | ok answer =>
      rw [hp] at h
      cases answer with
      | true => cases h
      | false =>
        obtain ⟨earlier, path, later, e', rfl, hpath, hearlier⟩ := ih h
        exact ⟨p :: earlier, path, later, e', rfl, hpath, List.forall_mem_cons.2 ⟨hp, hearlier⟩⟩

/-- Each path that is not judged as it changed comes after one that changed. -/
def ToldBefore (judged : List JsString → Except EngineError Bool)
    (changed : List JsString → Bool) (paths : List (List JsString)) : Prop :=
  ∀ earlier path later, paths = earlier ++ path :: later → judged path ≠ .ok (changed path) →
    ∃ p ∈ earlier, changed p = true

/-- What scanning the paths of an action comes to, when it is told of what changed. -/
structure Told (changed : List JsString → Bool) (paths : List (List JsString))
    (outcome : Option (List JsString)) : Prop where
  some : ∀ path, outcome = some path → changed path = true
  none : outcome = none → ∀ path ∈ paths, changed path = false

theorem told_of_toldBefore (hmiss : ∀ path, judged path = .ok false → changed path = false)
    (h : ToldBefore judged changed paths) :
    ∃ outcome, scanPaths judged paths = .ok outcome ∧ Told changed paths outcome := by
  have hclash : ∀ earlier path later, paths = earlier ++ path :: later →
      (∀ p ∈ earlier, judged p = .ok false) → judged path = .ok (changed path) := by
    intro earlier path later hpaths hearlier
    by_contra hne
    obtain ⟨p, hp, hchanged⟩ := h earlier path later hpaths hne
    rw [hmiss p (hearlier p hp)] at hchanged
    cases hchanged
  cases hscan : scanPaths judged paths with
  | error e =>
    obtain ⟨earlier, path, later, e', hpaths, hpath, hearlier⟩ := scan_error hscan
    rw [hclash earlier path later hpaths hearlier] at hpath
    cases hpath
  | ok outcome =>
    refine ⟨outcome, rfl, fun path houtcome => ?_, fun houtcome path hpath => ?_⟩
    · rw [houtcome] at hscan
      obtain ⟨earlier, later, hpaths, hpath, hearlier⟩ := scan_some hscan
      exact Except.ok.inj ((hclash earlier path later hpaths hearlier).symm.trans hpath)
    · rw [houtcome] at hscan
      exact hmiss path (scan_none hscan path hpath)

theorem toldBefore_of_scan (hmiss : ∀ path, judged path = .ok false → changed path = false)
    {outcome : Option (List JsString)}
    (hscan : scanPaths judged paths = .ok outcome)
    (hsome : ∀ path, outcome = some path → changed path = true) :
    ToldBefore judged changed paths := by
  intro earlier path later hpaths hne
  -- A path that the scan passes over is judged unchanged, and so is unchanged.
  have hpassed : judged path ≠ .ok false := fun h => hne (h.trans (by rw [hmiss path h]))
  cases outcome with
  | none =>
    refine absurd (scan_none hscan path ?_) hpassed
    rw [hpaths]
    exact List.mem_append_right _ List.mem_cons_self
  | some found =>
    obtain ⟨earlier', later', hpaths', hfound, hearlier'⟩ := scan_some hscan
    have hchanged := hsome found rfl
    rw [hpaths] at hpaths'
    rcases List.append_eq_append_iff.1 hpaths' with ⟨between, rfl, hrest⟩ | ⟨between, rfl, hrest⟩
    · cases between with
      | nil =>
        obtain ⟨rfl, -⟩ := List.cons.inj hrest
        exact absurd (hfound.trans (by rw [hchanged])) hne
      | cons p between =>
        obtain ⟨rfl, -⟩ := List.cons.inj hrest
        exact absurd (hearlier' path (List.mem_append_right _ List.mem_cons_self)) hpassed
    · cases between with
      | nil =>
        obtain ⟨rfl, -⟩ := List.cons.inj hrest
        exact absurd (hfound.trans (by rw [hchanged])) hne
      | cons p between =>
        obtain ⟨rfl, -⟩ := List.cons.inj hrest
        exact ⟨found, List.mem_append_right _ List.mem_cons_self, hchanged⟩
end

theorem mem_candidates {startPath path : List JsString} {paths : SortedAndCompactPaths} :
    path ∈ candidates startPath paths ↔ path ∈ paths ∧ arraysOverlap path startPath = true := by
  rw [candidates]
  split
  case isTrue _ => rw [List.mem_filter, List.mem_reverse]
  case isFalse hstart =>
    obtain rfl := List.length_eq_zero_iff.1 (Nat.eq_zero_of_not_pos hstart)
    rw [List.mem_reverse]
    refine ⟨fun h => ⟨h, ?_⟩, And.left⟩
    cases path <;> rfl

section
variable {Action : Type}

/-- The triggers of a call are exact: each action that reads a differing value is told, each
that is told is told of a path where the value or the depth differs, and told once. -/
structure ExactTriggers (c : Comparison) (dependencies : JsMap Action SortedAndCompactPaths)
    (before after : FabricValue) (startPath : List JsString)
    (triggered : List (ActionTrigger Action)) : Prop where
  complete : ∀ entry ∈ dependencies.entries, ∀ path ∈ entry.2,
    arraysOverlap path startPath = true →
    c.Differs (c.host.readAt before path) (c.host.readAt after path) →
    ∃ t ∈ triggered, t.action = entry.1
  sound : ∀ t ∈ triggered, ∃ entry ∈ dependencies.entries, entry.1 = t.action ∧ t.path ∈ entry.2 ∧
    (c.host.readAt before t.path ≠ c.host.readAt after t.path ∨
      c.host.depthAt before t.path ≠ c.host.depthAt after t.path)
  once : (triggered.map (·.action)).Nodup

/-- Every reader has a path, and comes to one that changed before any at which the property
reads do not judge the two documents as their own members differ. -/
def ReadsSettled (c : Comparison) (dependencies : JsMap Action SortedAndCompactPaths)
    (before after : FabricValue) (startPath : List JsString) : Prop :=
  ∀ entry ∈ dependencies.entries, (startPath = [] → entry.2 ≠ []) ∧
    ToldBefore (judge c (.value before) (.value after)) (c.changed before after)
      (candidates startPath entry.2)

variable {c : Comparison} {dependencies : JsMap Action SortedAndCompactPaths}
  {before after : FabricValue} {startPath : List JsString}

theorem mem_of_triggerOf {judged : List JsString → Except EngineError Bool} {action : Action}
    {paths : List (List JsString)} {t : ActionTrigger Action}
    (h : triggerOf judged action paths = some t) :
    t.action = action ∧ scanPaths judged paths = .ok (some t.path) := by
  rw [triggerOf] at h
  split at h
  · obtain rfl := Option.some.inj h
    exact ⟨rfl, ‹_›⟩
  · cases h

theorem nodup_triggers (judged : List JsString → Except EngineError Bool)
    (paths : SortedAndCompactPaths → List (List JsString)) :
    ((dependencies.entries.filterMap fun e => triggerOf judged e.1 (paths e.2)).map
      (·.action)).Nodup := by
  refine dependencies.nodup.sublist ?_
  induction dependencies.entries with
  | nil => exact List.Sublist.refl _
  | cons e entries ih =>
    rw [List.filterMap_cons]
    cases ht : triggerOf judged e.1 (paths e.2) with
    | none => exact ih.cons e.1
    | some t =>
      rw [List.map_cons, List.map_cons, (mem_of_triggerOf ht).1]
      exact ih.cons_cons e.1

/-- The call triggers exactly what changed, if and only if every reader comes to a changed
path of its own before any that inherited members have misjudged. -/
theorem determineActionTriggers_exact_iff (c : Comparison)
    (dependencies : JsMap Action SortedAndCompactPaths) (before after : FabricValue)
    (startPath : List JsString) (hbefore : c.host.Stored before) (hafter : c.host.Stored after) :
    (∃ triggered, determineActionTriggers c dependencies before after startPath = .ok triggered ∧
      ExactTriggers c dependencies before after startPath triggered) ↔
    ReadsSettled c dependencies before after startPath := by
  have hmiss : ∀ path, judge c (.value before) (.value after) path = .ok false →
      c.changed before after path = false := fun path h =>
    Comparison.changed_of_judge_false path (.value hbefore) (.value hafter) h
  constructor
  · rintro ⟨triggered, hcall, hexact⟩ entry hentry
    refine ⟨fun hstart hnil => ?_, ?_⟩
    · subst hstart
      exact determineActionTriggers_of_no_paths hentry hnil hcall
    · obtain ⟨hscans, hperm⟩ := determineActionTriggers_ok hcall
      obtain ⟨outcome, hscan⟩ := hscans entry hentry
      refine toldBefore_of_scan hmiss hscan fun path houtcome => ?_
      subst houtcome
      have htrigger : triggerOf (judge c (.value before) (.value after)) entry.1
          (candidates startPath entry.2) = some ⟨entry.1, path⟩ := by
        rw [triggerOf, hscan]
      obtain ⟨_, _, _, _, hdiffers⟩ := hexact.sound ⟨entry.1, path⟩
        (hperm.mem_iff.2 (List.mem_filterMap.2 ⟨entry, hentry, htrigger⟩))
      obtain ⟨_, _, _, hjudged, _⟩ := scan_some hscan
      by_contra hunchanged
      rw [Bool.not_eq_true] at hunchanged
      rcases hdiffers with hread | hdepth
      · exact hread (Comparison.readAt_eq_of_judge_true path (.value hbefore) (.value hafter)
          hjudged hunchanged)
      · exact hdepth (Comparison.depthAt_eq_of_unchanged hunchanged)
  · intro hsettled
    have htold : ∀ entry ∈ dependencies.entries, ∃ outcome,
        scanPaths (judge c (.value before) (.value after)) (candidates startPath entry.2) = .ok outcome ∧
        Told (c.changed before after) (candidates startPath entry.2) outcome :=
      fun entry hentry => told_of_toldBefore hmiss (hsettled entry hentry).2
    cases hcall : determineActionTriggers c dependencies before after startPath with
    | error e =>
      rcases determineActionTriggers_error hcall with ⟨hstart, entry, hentry, hnil⟩ |
        ⟨entry, hentry, e', herror⟩
      · exact absurd hnil ((hsettled entry hentry).1 hstart)
      · obtain ⟨outcome, hscan, _⟩ := htold entry hentry
        rw [hscan] at herror
        cases herror
    | ok triggered =>
      obtain ⟨_, hperm⟩ := determineActionTriggers_ok hcall
      refine ⟨triggered, rfl, ?_, ?_, ?_⟩
      · intro entry hentry path hpath hoverlap hdiffers
        have hchanged := Comparison.changed_complete hbefore hafter hdiffers
        obtain ⟨outcome, hscan, houtcome⟩ := htold entry hentry
        cases outcome with
        | none =>
          rw [houtcome.none rfl path (mem_candidates.2 ⟨hpath, hoverlap⟩)] at hchanged
          cases hchanged
        | some found =>
          refine ⟨⟨entry.1, found⟩, hperm.mem_iff.2 (List.mem_filterMap.2 ⟨entry, hentry, ?_⟩), rfl⟩
          rw [triggerOf, hscan]
      · intro t ht
        obtain ⟨entry, hentry, htrigger⟩ := List.mem_filterMap.1 (hperm.mem_iff.1 ht)
        obtain ⟨haction, hscan⟩ := mem_of_triggerOf htrigger
        obtain ⟨outcome, hscan', houtcome⟩ := htold entry hentry
        obtain rfl := Except.ok.inj (hscan'.symm.trans hscan)
        obtain ⟨earlier, later, hpaths, _, _⟩ := scan_some hscan
        have hmem : t.path ∈ candidates startPath entry.2 := by
          rw [hpaths]
          exact List.mem_append_right _ List.mem_cons_self
        exact ⟨entry, hentry, haction.symm, (mem_candidates.1 hmem).1,
          Comparison.changed_sound (houtcome.some t.path rfl)⟩
      · exact ((hperm.map (·.action)).nodup_iff).2 (nodup_triggers _ _)

/-- Values that are stored under every key make a stored container. -/
theorem stored_of_own {host : Host} {v : FabricValue} (hproto : host.own v PROTO = .undefined)
    (hfields : ∀ fields, v = .record fields → Fields.Ordered fields)
    (hown : ∀ key, host.Stored (host.own v key)) : host.Stored v := by
  intro path
  cases path with
  | nil => exact ⟨hproto, hfields⟩
  | cons key rest =>
    rw [Host.followOwn_cons]
    split
    · exact hown key rest
    · exact ⟨hproto, hfields⟩

theorem stored_record {host : Host} {fields : List (JsString × FabricValue)}
    (hordered : Fields.Ordered fields) (hproto : Fields.get? fields PROTO = none)
    (h : ∀ field ∈ fields, host.Stored field.2) : host.Stored (.record fields) := by
  refine stored_of_own (by rw [Host.own, hproto, Option.getD_none]) (fun _ heq => ?_) fun key => ?_
  · obtain rfl := FabricValue.record.inj heq
    exact hordered
  · rw [Host.own]
    cases hget : Fields.get? fields key with
    | none => exact Host.stored_undefined
    | some v => exact h (key, v) (Fields.mem_of_get? hget)

theorem stored_array {host : Host} {slots : List (Option FabricValue)}
    (h : ∀ v, some v ∈ slots → host.Stored v) : host.Stored (.array slots) := by
  have hproto : host.own (.array slots) PROTO = .undefined := by
    have hindex : arrayIndex? PROTO = none := by decide +kernel
    rw [Host.own, if_neg (by decide +kernel), child, hindex]
    rfl
  refine stored_of_own hproto (fun _ heq => by cases heq) fun key => ?_
  rw [Host.own]
  split
  · exact Host.stored_leaf rfl rfl
  · cases hchild : child (.array slots) key with
    | none => exact Host.stored_undefined
    | some v =>
      cases hindex : arrayIndex? key with
      | none =>
        rw [child, hindex] at hchild
        cases hchild
      | some i =>
        rw [child, hindex] at hchild
        exact h v (List.mem_of_getElem? (Option.join_eq_some_iff.1 hchild))

def deepReads : Comparison := ⟨.withoutProto [], true, ⟨false⟩⟩

def readsOf (path : List JsString) : JsMap Nat SortedAndCompactPaths :=
  JsMap.empty.set 0 [path]

/-- A list of items, one with a title, and beside it members of an object. -/
def itemsDocument (title : FabricValue) (beside : List (JsString × FabricValue)) : FabricValue :=
  .record [("value", .record (("items", .array [some .null, some (.record [("title", title)])]) ::
    beside))]

def itemsBefore : FabricValue := itemsDocument .null [("zone", .null)]

def itemsAfter : FabricValue :=
  itemsDocument (.bool true) [("toString", .null), ("zone", .bool true)]

/-- Readers of members that change and that do not, of one item and of the title in it, and of a
name that objects inherit. -/
def itemReaders : JsMap Nat SortedAndCompactPaths :=
  (((JsMap.empty.set 0 ([["value", "items", "1", "title"], ["value", "note"]] :
    SortedAndCompactPaths)).set 1 [["value", "items", "0"], ["value", "note"]]).set 2
    [["value", "items", "1"], ["value", "items", "1", "title"]]).set 3
    [["value", "toString"], ["value", "zone"]]

theorem stored_itemsDocument {title : FabricValue} {beside : List (JsString × FabricValue)}
    (htitle : deepReads.host.Stored title) (h : ∀ field ∈ beside, deepReads.host.Stored field.2)
    (hordered : Fields.Ordered (("items", .null) :: beside))
    (hproto : Fields.get? beside PROTO = none) :
    deepReads.host.Stored (itemsDocument title beside) := by
  have hone (key : JsString) (hkey : key ≠ PROTO) (v : FabricValue) (hv : deepReads.host.Stored v) :
      deepReads.host.Stored (.record [(key, v)]) := by
    refine stored_record (List.pairwise_singleton _ _) ?_ fun field hfield => ?_
    · rw [Fields.get?_cons, if_neg hkey]
      rfl
    · cases List.mem_singleton.1 hfield
      exact hv
  have hitems : deepReads.host.Stored (.array [some .null, some (.record [("title", title)])]) := by
    apply stored_array
    intro v hv
    rcases List.mem_cons.1 hv with hv | hv
    · cases hv
      exact Host.stored_leaf rfl rfl
    · cases List.mem_singleton.1 hv
      exact hone "title" (by decide +kernel) title htitle
  apply hone "value" (by decide +kernel)
  refine stored_record (List.pairwise_cons.2 (List.pairwise_cons.1 hordered)) ?_ ?_
  · rw [Fields.get?_cons, if_neg (by decide +kernel), hproto]
  · exact List.forall_mem_cons.2 ⟨hitems, h⟩

theorem determineActionTriggers_title :
    ∃ triggered, determineActionTriggers deepReads itemReaders itemsBefore itemsAfter ["value"] =
        .ok triggered ∧
      ExactTriggers deepReads itemReaders itemsBefore itemsAfter ["value"] triggered := by
  have hnull : deepReads.host.Stored .null := Host.stored_leaf rfl rfl
  have htrue : deepReads.host.Stored (.bool true) := Host.stored_leaf rfl rfl
  have hbefore : deepReads.host.Stored itemsBefore :=
    stored_itemsDocument hnull (List.forall_mem_singleton.2 hnull) (by decide +kernel)
      (by decide +kernel)
  have hafter : deepReads.host.Stored itemsAfter :=
    stored_itemsDocument htrue (List.forall_mem_cons.2 ⟨hnull, List.forall_mem_singleton.2 htrue⟩)
      (by decide +kernel) (by decide +kernel)
  have hscans : ∀ entry ∈ itemReaders.entries,
      (scanPaths (judge deepReads (.value itemsBefore) (.value itemsAfter))
        (candidates ["value"] entry.2)).toOption.map
        (fun outcome => outcome.all (deepReads.changed itemsBefore itemsAfter)) = some true := by
    decide +kernel
  refine (determineActionTriggers_exact_iff deepReads itemReaders itemsBefore itemsAfter ["value"]
    hbefore hafter).2 fun entry hentry => ⟨fun hstart => absurd hstart (List.cons_ne_nil _ _), ?_⟩
  cases hscan : scanPaths (judge deepReads (.value itemsBefore) (.value itemsAfter))
      (candidates ["value"] entry.2) with
  | error e =>
    have hnone := hscans entry hentry
    rw [hscan] at hnone
    cases hnone
  | ok outcome =>
    refine toldBefore_of_scan (fun path h => Comparison.changed_of_judge_false path
      (.value hbefore) (.value hafter) h) hscan fun path houtcome => ?_
    subst houtcome
    have hchanged := hscans entry hentry
    rw [hscan] at hchanged
    exact Option.some.inj hchanged

/-- A reader of a name that `Object.prototype` holds is not told of its first value: the call
throws. -/
theorem not_determineActionTriggers_toString :
    ¬∀ (c : Comparison) (dependencies : JsMap Nat SortedAndCompactPaths)
      (before after : FabricValue) (startPath : List JsString),
      c.host.Stored before → c.host.Stored after →
      ∃ triggered, determineActionTriggers c dependencies before after startPath = .ok triggered ∧
        ExactTriggers c dependencies before after startPath triggered := by
  intro h
  obtain ⟨triggered, hcall, -⟩ := h deepReads (readsOf ["toString"]) (.record [])
    (.record [("toString", .null)]) ["toString"]
    (stored_record List.Pairwise.nil rfl fun _ hfield => by cases hfield)
    (stored_record (List.pairwise_singleton _ _) (by decide) fun _ hfield => by
      cases List.mem_singleton.1 hfield
      exact Host.stored_leaf rfl rfl)
  obtain ⟨outcome, hscan⟩ := (determineActionTriggers_ok hcall).1 _ (List.mem_singleton_self _)
  have herror : scanPaths (judge deepReads (.value (.record [])) (.value (.record [("toString", .null)])))
      (candidates (["toString"] : List JsString) [["toString"]]) =
        .error Host.cannotCompareFunction := by decide +kernel
  cases herror.symm.trans hscan

end

end Scheduler
