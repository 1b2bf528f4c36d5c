import CommonFabric.DeepEqual
import CommonFabric.Checked
import CommonFabric.Utf8Order

/-!
# The two equalities of fabric values

`valueEqual` compares what two values hash, so the content of records and arrays and the tag and
state of instances. `fabricAwareEqual` walks the two in step and asks `valueEqual` about instances
of one class alone. They agree but where instances of two classes with one tag and state stand at
one place of two values of the same content.
-/

namespace HeldValue

mutual
/-- What a hash is fed: a value without addresses, the members of its records in key order, and
of an instance the tag and the state. Nothing where something in it cannot be hashed. -/
def fed : HeldValue → Option HeldValue
  | .array _ slots => (fedSlots slots).map (.array 0 ·)
  | .record _ fields => (fedFields fields).map fun f => .record 0 (Utf8.sortById (·.1) f)
  | .primitive _ cls content => content.map fun c => .primitive 0 cls (some c)
  | .wrapped _ _ _ none => none
  | .wrapped _ _ tag (some state) => (fed state).map fun c => .wrapped 0 ⟨[]⟩ tag (some c)
  | value => some value

def fedSlots : List (Option HeldValue) → Option (List (Option HeldValue))
  | [] => some []
  | none :: slots => (fedSlots slots).map (none :: ·)
  | some value :: slots =>
    match fed value, fedSlots slots with
    | some c, some cs => some (some c :: cs)
    | _, _ => none

def fedFields : Fields → Option Fields
  | [] => some []
  | (key, value) :: fields =>
    match fed value, fedFields fields with
    | some c, some cs => some ((key, c) :: cs)
    | _, _ => none
end

/-- What is thrown of a value that cannot be hashed, or asked whether it is frozen. -/
inductive HashError where
  | refused
  deriving DecidableEq

/-- The digest of what a hash is fed, and which objects are known to be frozen all the way down. A
value that can be hashed can be asked that. -/
structure Hashing where
  digest : HeldValue → JsString
  isDeepFrozen : HeldValue → Except HashError Bool
  isDeepFrozen_ok : ∀ value c, fed value = some c → ∃ frozen, isDeepFrozen value = .ok frozen

/-- `objectSubtypeOf`. -/
inductive ObjectSubtype where
  | array
  | plain
  | special
  deriving DecidableEq

def objectSubtypeOf : HeldValue → ObjectSubtype
  | .array .. => .array
  | .record .. => .plain
  | _ => .special

/-- The checks of two objects of one kind that cost less than a hash. -/
def quicklyDiffer : HeldValue → HeldValue → Bool
  | .array _ xs, .array _ ys => xs.length ≠ ys.length
  | .record _ f, .record _ g => f.length ≠ g.length
  | .wrapped _ _ tag _, .wrapped _ _ tag' _ => tag ≠ tag'
  | a, b => constructorOf a ≠ constructorOf b

section

variable (h : Hashing)

def hashStringOf (value : HeldValue) : Except HashError JsString :=
  match fed value with
  | some c => .ok (h.digest c)
  | none => .error .refused

def sameHash (a b : HeldValue) : Except HashError Bool := do
  let hash ← hashStringOf h a
  let hash' ← hashStringOf h b
  return hash = hash'

def bothDeepFrozen (a b : HeldValue) : Except HashError Bool := do
  if ← h.isDeepFrozen a then h.isDeepFrozen b else return false

def valueEqual (a b : HeldValue) : Except HashError Bool :=
  if a = b then .ok true
  else if !a.isObject then .ok false
  else if !b.isObject then .ok false
  else do
    if ← bothDeepFrozen h a b then sameHash h a b
    else if objectSubtypeOf a ≠ objectSubtypeOf b then return false
    else if quicklyDiffer a b then return false
    else sameHash h a b

/-- The pairs of objects with a special one among them. -/
def specialObjectEqual (a b : HeldValue) : Except HashError (Option Bool) :=
  if !(a.isSpecial || b.isSpecial) then .ok none
  else if !(a.isSpecial && b.isSpecial) then .ok (some false)
  else if constructorOf a ≠ constructorOf b then .ok (some false)
  else (valueEqual h a b).map some

def fabricAwareEqual (a b : HeldValue) : Except HashError Bool :=
  deepEqual (specialObjectEqual h) a b

end

/-- Instances at one place of the two values are of one class. -/
def ClassesAgree (a b : HeldValue) : Prop :=
  ∀ m n c d t u s r, Paired a b (.wrapped m c t s) (.wrapped n d u r) → c = d

variable {xs : List (Option HeldValue)} {c a : HeldValue}

theorem fedSlots_iff {cs : List (Option HeldValue)} :
    fedSlots xs = some cs ↔ List.Forall₂ (fun x c => (x = none ∧ c = none) ∨
      ∃ value content, x = some value ∧ c = some content ∧ fed value = some content) xs cs := by
  induction xs generalizing cs with
  | nil => cases cs <;> simp [fedSlots]
  | cons x xs ih =>
    cases x with
    | none =>
      rw [fedSlots, Option.map_eq_some_iff]
      constructor
      · rintro ⟨rest, hrest, rfl⟩
        exact .cons (.inl ⟨rfl, rfl⟩) (ih.1 hrest)
      · intro h
        cases h with
        | cons hhead htail =>
          rcases hhead with ⟨-, rfl⟩ | ⟨_, _, hx, _⟩
          · exact ⟨_, ih.2 htail, rfl⟩
          · cases hx
    | some value =>
      rw [fedSlots]
      constructor
      · intro h
        cases hvalue : fed value with
        | none => rw [hvalue] at h; cases h
        | some content =>
          cases hrest : fedSlots xs with
          | none => rw [hvalue, hrest] at h; cases h
          | some rest =>
            rw [hvalue, hrest] at h
            cases h
            exact .cons (.inr ⟨value, content, rfl, rfl, hvalue⟩) (ih.1 hrest)
      · intro h
        cases h with
        | cons hhead htail =>
          rcases hhead with ⟨hx, _⟩ | ⟨_, content, hx, rfl, hvalue⟩
          · cases hx
          · cases hx
            rw [hvalue, ih.2 htail]

theorem fedFields_iff {f cs : Fields} :
    fedFields f = some cs ↔
      List.Forall₂ (fun e c => e.1 = c.1 ∧ fed e.2 = some c.2) f cs := by
  induction f generalizing cs with
  | nil => cases cs <;> simp [fedFields]
  | cons e f ih =>
    obtain ⟨key, value⟩ := e
    rw [fedFields]
    constructor
    · intro h
      cases hvalue : fed value with
      | none => rw [hvalue] at h; cases h
      | some content =>
        cases hrest : fedFields f with
        | none => rw [hvalue, hrest] at h; cases h
        | some rest =>
          rw [hvalue, hrest] at h
          cases h
          exact .cons ⟨rfl, hvalue⟩ (ih.1 hrest)
    · intro h
      cases h with
      | @cons _ c _ _ hhead htail =>
        obtain ⟨k, content⟩ := c
        obtain ⟨rfl, hvalue⟩ := hhead
        dsimp only at hvalue
        rw [hvalue, ih.2 htail]

theorem fedSlots_hole {cs : List (Option HeldValue)} (h : fedSlots xs = some cs) {i : Nat} :
    cs[i]? = some none ↔ xs[i]? = some none := by
  have hpairs := fedSlots_iff.1 h
  constructor
  · intro hc
    obtain ⟨_, hx, ⟨rfl, -⟩ | ⟨_, _, _, hsome, _⟩⟩ := ListPairs.exists_at_left hpairs hc
    · exact hx
    · cases hsome
  · intro hx
    obtain ⟨_, hc, ⟨-, rfl⟩ | ⟨_, _, hsome, _⟩⟩ := ListPairs.exists_at hpairs hx
    · exact hc
    · cases hsome

theorem fedSlots_value {cs : List (Option HeldValue)} (h : fedSlots xs = some cs) {i : Nat}
    {x : HeldValue} (hx : xs[i]? = some (some x)) : ∃ c, cs[i]? = some
    (some c) ∧ fed x = some c := by
  obtain ⟨_, hc, ⟨hnone, _⟩ | ⟨_, content, hsome, rfl, hfed⟩⟩ :=
    ListPairs.exists_at (fedSlots_iff.1 h) hx
  · cases hnone
  · cases hsome
    exact ⟨content, hc, hfed⟩

theorem fed_array {m : Nat} :
    fed (.array m xs) = some c ↔ ∃ cs, fedSlots xs = some cs ∧ c = .array 0 cs := by
  rw [fed, Option.map_eq_some_iff]
  simp only [eq_comm]

theorem fed_record {m : Nat} {f : Fields} :
    fed (.record m f) = some c ↔
      ∃ cs, fedFields f = some cs ∧ c = .record 0 (Utf8.sortById (·.1) cs) := by
  rw [fed, Option.map_eq_some_iff]
  simp only [eq_comm]

theorem fed_primitive {m : Nat} {cls : JsString} {content : Option FabricValue} :
    fed (.primitive m cls content) = some c ↔
      ∃ p, content = some p ∧ c = .primitive 0 cls (some p) := by
  rw [fed, Option.map_eq_some_iff]
  simp only [eq_comm]

theorem fed_wrapped {m : Nat} {cls tag : JsString} {state : Option HeldValue} :
    fed (.wrapped m cls tag state) = some c ↔
      ∃ value content, state = some value ∧ fed value = some content ∧
        c = .wrapped 0 ⟨[]⟩ tag (some content) := by
  cases state with
  | none => simp [fed]
  | some value =>
    rw [fed, Option.map_eq_some_iff]
    constructor
    · rintro ⟨content, hcontent, rfl⟩
      exact ⟨value, content, rfl, hcontent, rfl⟩
    · rintro ⟨_, content, hvalue, hcontent, rfl⟩
      cases hvalue
      exact ⟨content, hcontent, rfl⟩

theorem fed_of_not_object (h : a.isObject = false) : fed a = some a := by
  cases a with
  | array => cases h
  | record => cases h
  | primitive => cases h
  | wrapped => cases h
  | _ => rfl

/-- The kind of a value, as far as a hash tells it. -/
def kind : HeldValue → Nat
  | .array .. => 1
  | .record .. => 2
  | .primitive .. => 3
  | .wrapped .. => 4
  | _ => 0

theorem kind_fed (h : fed a = some c) : kind c = kind a := by
  cases a with
  | array => obtain ⟨_, _, rfl⟩ := fed_array.1 h; rfl
  | record => obtain ⟨_, _, rfl⟩ := fed_record.1 h; rfl
  | primitive => obtain ⟨_, _, rfl⟩ := fed_primitive.1 h; rfl
  | wrapped => obtain ⟨_, _, _, _, rfl⟩ := fed_wrapped.1 h; rfl
  | _ => cases h; rfl

theorem isObject_iff : a.isObject = true ↔ kind a ≠ 0 := by
  cases a <;> simp [isObject, kind]

theorem sortById_perm (f : Fields) : (Utf8.sortById (·.1) f).Perm f := List.perm_insertionSort _ f

theorem not_quicklyDiffer {b : HeldValue} (ha : fed a = some c) (hb : fed b = some c)
    (hobject : a.isObject = true) :
    objectSubtypeOf a = objectSubtypeOf b ∧ quicklyDiffer a b = false := by
  have hkind : kind a = kind b := (kind_fed ha).symm.trans (kind_fed hb)
  cases a with
  | array m xs =>
    cases b with
    | array n ys =>
      obtain ⟨cs, hcs, rfl⟩ := fed_array.1 ha
      obtain ⟨ds, hds, heq⟩ := fed_array.1 hb
      cases heq
      have hlength := (fedSlots_iff.1 hcs).length_eq.trans (fedSlots_iff.1 hds).length_eq.symm
      simp [objectSubtypeOf, quicklyDiffer, hlength]
    | _ => cases hkind
  | record m f =>
    cases b with
    | record n g =>
      obtain ⟨cs, hcs, rfl⟩ := fed_record.1 ha
      obtain ⟨ds, hds, heq⟩ := fed_record.1 hb
      have hsort := congrArg List.length (HeldValue.record.inj heq).2
      rw [(sortById_perm cs).length_eq, (sortById_perm ds).length_eq] at hsort
      have hlength : f.length = g.length := by
        rw [(fedFields_iff.1 hcs).length_eq, (fedFields_iff.1 hds).length_eq, hsort]
      simp [objectSubtypeOf, quicklyDiffer, hlength]
    | _ => cases hkind
  | primitive m cls content =>
    cases b with
    | primitive n cls' content' =>
      obtain ⟨p, -, rfl⟩ := fed_primitive.1 ha
      obtain ⟨q, -, heq⟩ := fed_primitive.1 hb
      cases heq
      simp [objectSubtypeOf, quicklyDiffer, constructorOf]
    | _ => cases hkind
  | wrapped m cls tag state =>
    cases b with
    | wrapped n cls' tag' state' =>
      obtain ⟨_, _, _, _, rfl⟩ := fed_wrapped.1 ha
      obtain ⟨_, _, _, _, heq⟩ := fed_wrapped.1 hb
      cases heq
      simp [objectSubtypeOf, quicklyDiffer]
    | _ => cases hkind
  | _ => cases hobject

section

variable {h : Hashing}

variable {a b c : HeldValue} {walk : Except HashError Bool}

theorem sameHash_ok {d : HeldValue} (ha : fed a = some c) (hb : fed b = some d)
    (hdigest : h.digest c = h.digest d → c = d) : sameHash h a b = .ok (decide (c = d)) := by
  have hiff : (h.digest c = h.digest d) ↔ c = d := ⟨hdigest, congrArg h.digest⟩
  simp only [sameHash, hashStringOf, ha, hb]
  exact congrArg Except.ok (decide_eq_decide.2 hiff)

/-- Of values that can be hashed, `valueEqual` compares what they are fed as. -/
theorem valueEqual_ok {d : HeldValue} (ha : fed a = some c) (hb : fed b = some d)
    (hdigest : h.digest c = h.digest d → c = d) : valueEqual h a b = .ok (decide (c = d)) := by
  unfold valueEqual
  by_cases hsame : a = b
  · rw [if_pos hsame]
    rw [hsame, hb] at ha
    rw [decide_eq_true (Option.some.inj ha).symm]
  · rw [if_neg hsame]
    -- Something that is no object is fed as itself.
    have hleaf : ∀ x y z, fed x = some z → fed y = some z → x.isObject = false → x = y := by
      intro x y z hx hy hnot
      have hkind := (kind_fed hx).symm.trans (kind_fed hy)
      have hnot' : y.isObject = false := by
        rw [← Bool.not_eq_true, isObject_iff] at hnot ⊢
        rwa [← hkind]
      rw [fed_of_not_object hnot, ← hy, fed_of_not_object hnot'] at hx
      exact Option.some.inj hx
    cases hobject : a.isObject with
    | false =>
      have hne : c ≠ d := by
        rintro rfl
        exact hsame (hleaf a b c ha hb hobject)
      rw [Bool.not_false, if_pos rfl, decide_eq_false hne]
    | true =>
      rw [Bool.not_true, if_neg Bool.false_ne_true]
      cases hobject' : b.isObject with
      | false =>
        have hne : c ≠ d := by
          rintro rfl
          exact hsame (hleaf b a c hb ha hobject').symm
        rw [Bool.not_false, if_pos rfl, decide_eq_false hne]
      | true =>
        rw [Bool.not_true, if_neg Bool.false_ne_true]
        obtain ⟨frozen, hfrozen⟩ : ∃ frozen, bothDeepFrozen h a b = .ok frozen := by
          obtain ⟨x, hx⟩ := h.isDeepFrozen_ok a c ha
          obtain ⟨y, hy⟩ := h.isDeepFrozen_ok b d hb
          cases x with
          | true => exact ⟨y, by simp only [bothDeepFrozen, hx, hy]; rfl⟩
          | false => exact ⟨false, by simp only [bothDeepFrozen, hx]; rfl⟩
        rw [hfrozen]
        have hhash := sameHash_ok ha hb hdigest
        cases frozen with
        | true => exact hhash
        | false =>
          show (if objectSubtypeOf a ≠ objectSubtypeOf b then _ else _) = _
          by_cases hequal : c = d
          · subst hequal
            obtain ⟨hsubtype, hquick⟩ := not_quicklyDiffer ha hb hobject
            rw [if_neg (not_not.2 hsubtype), hquick, if_neg Bool.false_ne_true, hhash]
          · rw [hhash, decide_eq_false hequal]
            split
            · rfl
            · split <;> rfl

theorem sameHash_error (hrefused : ¬((fed a).isSome ∧ (fed b).isSome)) {r : Bool} :
    sameHash h a b ≠ .ok r := by
  intro heq
  apply hrefused
  simp only [sameHash, hashStringOf] at heq
  cases ha : fed a with
  | none => rw [ha] at heq; cases heq
  | some c =>
    cases hb : fed b with
    | none => rw [ha, hb] at heq; cases heq
    | some d => exact ⟨rfl, rfl⟩

/-- What `valueEqual` returns of values that cannot be hashed: they are one, or one is no object, or
they differ at a glance. -/
theorem valueEqual_refused {r : Bool} (hequal : valueEqual h a b = .ok r)
    (hrefused : ¬((fed a).isSome ∧ (fed b).isSome)) :
    (a = b ∧ r = true) ∨ (a ≠ b ∧ r = false ∧ (a.isObject = false ∨ b.isObject = false ∨
      objectSubtypeOf a ≠ objectSubtypeOf b ∨ quicklyDiffer a b = true)) := by
  unfold valueEqual at hequal
  split at hequal
  · rename_i hsame
    exact .inl ⟨hsame, (Except.ok.inj hequal).symm⟩
  · rename_i hsame
    cases hobject : a.isObject with
    | false =>
      rw [hobject, Bool.not_false, if_pos rfl] at hequal
      exact .inr ⟨hsame, (Except.ok.inj hequal).symm, .inl rfl⟩
    | true =>
      rw [hobject, Bool.not_true, if_neg Bool.false_ne_true] at hequal
      cases hobject' : b.isObject with
      | false =>
        rw [hobject', Bool.not_false, if_pos rfl] at hequal
        exact .inr ⟨hsame, (Except.ok.inj hequal).symm, .inr (.inl rfl)⟩
      | true =>
        rw [hobject', Bool.not_true, if_neg Bool.false_ne_true] at hequal
        cases hfrozen : bothDeepFrozen h a b with
        | error e => rw [hfrozen] at hequal; cases hequal
        | ok frozen =>
          rw [hfrozen] at hequal
          cases frozen with
          | true => exact absurd hequal (sameHash_error hrefused)
          | false =>
            replace hequal : (if objectSubtypeOf a ≠ objectSubtypeOf b then
                (.ok false : Except HashError Bool)
              else if quicklyDiffer a b then .ok false else sameHash h a b) = .ok r := hequal
            split at hequal
            · rename_i hsubtype
              exact .inr ⟨hsame, (Except.ok.inj hequal).symm, .inr (.inr (.inl hsubtype))⟩
            · split at hequal
              · rename_i hquick
                exact .inr ⟨hsame, (Except.ok.inj hequal).symm, .inr (.inr (.inr hquick))⟩
              · exact absurd hequal (sameHash_error hrefused)

theorem settled_of_answer {r : Bool} (hne : a ≠ b) (ha : a.isObject = true) (hb : b.isObject = true)
    (hanswer : specialObjectEqual h a b = .ok (some r)) :
    settled (specialObjectEqual h) a b walk = .ok r := by
  unfold settled
  rw [if_neg hne, ha, hb, Bool.and_self, Bool.not_true, if_neg Bool.false_ne_true, hanswer]

theorem settled_of_declined (hne : a ≠ b) (ha : a.isObject = true) (hb : b.isObject = true)
    (hnone : specialObjectEqual h a b = .ok none)
    (hdiffer : constructorOf a ≠ constructorOf b ∨ keyCount a ≠ keyCount b ∨ walk = .ok false) :
    settled (specialObjectEqual h) a b walk = .ok false := by
  unfold settled
  rw [if_neg hne, ha, hb, Bool.and_self, Bool.not_true, if_neg Bool.false_ne_true, hnone]
  dsimp only
  split
  · rfl
  · rename_i hclass
    split
    · rfl
    · rename_i hcount
      rcases hdiffer with hdiffer | hdiffer | hdiffer
      · exact absurd hdiffer hclass
      · exact absurd hdiffer hcount
      · exact hdiffer

theorem settled_of_not_object (hne : a ≠ b) (hnot : a.isObject = false ∨ b.isObject = false) :
    settled (specialObjectEqual h) a b walk = .ok false := by
  unfold settled
  rw [if_neg hne]
  have hand : (a.isObject && b.isObject) = false := Bool.and_eq_false_iff.2 hnot
  rw [hand, Bool.not_false, if_pos rfl]

theorem specialObjectEqual_false (hspecial : (a.isSpecial || b.isSpecial) = true)
    (hequal : valueEqual h a b = .ok false) : specialObjectEqual h a b = .ok (some false) := by
  unfold specialObjectEqual
  rw [hspecial, Bool.not_true, if_neg Bool.false_ne_true]
  split
  · rfl
  · split
    · rfl
    · rw [hequal]
      rfl

theorem specialObjectEqual_none (ha : a.isSpecial = false)
    (hb : b.isSpecial = false) : specialObjectEqual h a b = .ok none := by
  unfold specialObjectEqual
  rw [ha, hb, Bool.or_self, Bool.not_false, if_pos rfl]

/-- What one of the checks of `valueEqual` settles, the walk settles alike. -/
theorem fabricAwareEqual_refused {r : Bool} (hequal : valueEqual h a b = .ok r)
    (hrefused : ¬((fed a).isSome ∧ (fed b).isSome)) : fabricAwareEqual h a b = .ok r := by
  unfold fabricAwareEqual
  rcases valueEqual_refused hequal hrefused with ⟨rfl, rfl⟩ | ⟨hne, rfl, hdiffer⟩
  · rw [deepEqual_iff]
    exact .refl a
  · by_cases hobjects : a.isObject = true ∧ b.isObject = true
    · obtain ⟨ha, hb⟩ := hobjects
      rw [ha, hb] at hdiffer
      cases hspecial : (a.isSpecial || b.isSpecial) with
      | true =>
        have harrays : (a.isArray && b.isArray) = false ∧ (a.isRecord && b.isRecord) = false := by
          rw [Bool.or_eq_true] at hspecial
          rcases hspecial with hspecial | hspecial
          · obtain ⟨_, harray, hrecord, _⟩ := special_facts hspecial
            rw [harray, hrecord]
            exact ⟨rfl, rfl⟩
          · obtain ⟨_, harray, hrecord, _⟩ := special_facts hspecial
            rw [harray, hrecord, Bool.and_false, Bool.and_false]
            exact ⟨rfl, rfl⟩
        rw [deepEqual_other harrays.1 harrays.2]
        exact settled_of_answer hne ha hb (specialObjectEqual_false hspecial hequal)
      | false =>
        rw [Bool.or_eq_false_iff] at hspecial
        have hnone := specialObjectEqual_none (h := h) hspecial.1 hspecial.2
        cases a with
        | array m xs =>
          cases b with
          | array n ys =>
            have hlength : xs.length ≠ ys.length := by simpa [objectSubtypeOf, quicklyDiffer] using hdiffer
            rw [deepEqual]
            exact settled_of_declined hne ha hb hnone (.inr (.inr (if_pos hlength)))
          | record n g =>
            rw [deepEqual_other rfl rfl]
            exact settled_of_declined hne ha hb hnone (.inl (by simp [constructorOf]))
          | primitive => cases hspecial.2
          | wrapped => cases hspecial.2
          | _ => cases hb
        | record m f =>
          cases b with
          | record n g =>
            have hlength : f.length ≠ g.length := by simpa [objectSubtypeOf, quicklyDiffer] using hdiffer
            rw [deepEqual]
            exact settled_of_declined hne ha hb hnone (.inr (.inl hlength))
          | array n ys =>
            rw [deepEqual_other rfl rfl]
            exact settled_of_declined hne ha hb hnone (.inl (by simp [constructorOf]))
          | primitive => cases hspecial.2
          | wrapped => cases hspecial.2
          | _ => cases hb
        | primitive => cases hspecial.1
        | wrapped => cases hspecial.1
        | _ => cases ha
    · have hnot : a.isObject = false ∨ b.isObject = false := by
        rw [not_and_or, Bool.not_eq_true, Bool.not_eq_true] at hobjects
        exact hobjects
      have harrays : (a.isArray && b.isArray) = false ∧ (a.isRecord && b.isRecord) = false := by
        rcases hnot with hnot | hnot
        · cases a <;> first | exact ⟨rfl, rfl⟩ | cases hnot
        · cases b <;> first | exact ⟨Bool.and_false _, Bool.and_false _⟩ | cases hnot
      rw [deepEqual_other harrays.1 harrays.2]
      exact settled_of_not_object hne hnot

theorem specialObjectEqual_true
    (hanswer : specialObjectEqual h a b = .ok (some true)) : a.isSpecial = true ∧
      b.isSpecial = true ∧ constructorOf a = constructorOf b ∧ valueEqual h a b = .ok true := by
  unfold specialObjectEqual at hanswer
  split at hanswer
  · cases hanswer
  · split at hanswer
    · cases hanswer
    · rename_i hspecial
      rw [Bool.not_eq_true', Bool.not_eq_false, Bool.and_eq_true] at hspecial
      split at hanswer
      · cases hanswer
      · rename_i hclass
        refine ⟨hspecial.1, hspecial.2, not_not.1 hclass, ?_⟩
        cases hequal : valueEqual h a b with
        | error e => rw [hequal] at hanswer; cases hanswer
        | ok r => rw [hequal] at hanswer; cases hanswer; rfl

theorem not_declined (ha : a.isSpecial = true) :
    specialObjectEqual h a b ≠ .ok none := by
  intro hnone
  unfold specialObjectEqual at hnone
  rw [ha, Bool.true_or, Bool.not_true, if_neg Bool.false_ne_true] at hnone
  split at hnone
  · cases hnone
  · split at hnone
    · cases hnone
    · cases hequal : valueEqual h a b with
      | error e => rw [hequal] at hnone; cases hnone
      | ok r => rw [hequal] at hnone; cases hnone

variable (h) in
/-- No two things at one place of the two values share a digest, unless they are fed alike. -/
def NoClash (a b : HeldValue) : Prop :=
  ∀ x y, Paired a b x y → ∀ c d, fed x = some c → fed y = some d →
    h.digest c = h.digest d → c = d

theorem NoClash.paired {x y : HeldValue} (hclash : NoClash h a b) (hpaired : Paired a b x y) :
    NoClash h x y := fun u v huv => hclash u v (hpaired.trans huv)

theorem ClassesAgree.paired {x y : HeldValue} (hclasses : ClassesAgree a b)
    (hpaired : Paired a b x y) : ClassesAgree x y :=
  fun _ _ _ _ _ _ _ _ h => hclasses _ _ _ _ _ _ _ _ (hpaired.trans h)

theorem valid_of_getElem? {xs : List (Option HeldValue)} (hvalid : ValidSlots xs) {i : Nat}
    {x : HeldValue} (hx : xs[i]? = some (some x)) : Valid x := by
  induction xs generalizing i with
  | nil => cases hx
  | cons slot xs ih =>
    rw [ValidSlots] at hvalid
    cases i with
    | zero =>
      rw [List.getElem?_cons_zero, Option.some.injEq] at hx
      rw [hx] at hvalid
      exact hvalid.1
    | succ i => exact ih hvalid.2 hx

theorem valid_of_mem {f : Fields} (hvalid : ValidFields f) {e : JsString × HeldValue}
    (he : e ∈ f) : Valid e.2 := by
  induction f with
  | nil => cases he
  | cons e' f ih =>
    rw [ValidFields] at hvalid
    cases List.mem_cons.1 he with
    | inl heq => exact heq ▸ hvalid.1
    | inr he => exact ih hvalid.2 he

theorem get?_of_mem {f : Fields} (hnodup : (f.map (·.1)).Nodup) {e : JsString × HeldValue}
    (he : e ∈ f) : get? f e.1 = some e.2 := by
  induction f with
  | nil => cases he
  | cons e' f ih =>
    rw [List.map_cons, List.nodup_cons] at hnodup
    rw [get?, List.find?_cons]
    cases List.mem_cons.1 he with
    | inl heq => rw [heq, decide_eq_true rfl]; rfl
    | inr he =>
      have hne : e'.1 ≠ e.1 := by
        intro heq
        exact hnodup.1 (heq ▸ List.mem_map_of_mem he)
      rw [decide_eq_false hne]
      exact ih hnodup.2 he

theorem fedFields_keys {f cs : Fields} (h : fedFields f = some cs) :
    cs.map (·.1) = f.map (·.1) := by
  have hpairs := fedFields_iff.1 h
  clear h
  induction hpairs with
  | nil => rfl
  | cons hfirst _ ih => rw [List.map_cons, List.map_cons, hfirst.1, ih]

/-- Two lists of members of one length, where each of the first is among those of the second, are
the same but for their order. -/
theorem fedFields_perm {f g cs ds : Fields} (hcs : fedFields f = some cs)
    (hds : fedFields g = some ds) (hnodup : (f.map (·.1)).Nodup) (hlength : f.length = g.length)
    (hmember : ∀ e ∈ f, ∃ y, (e.1, y) ∈ g ∧ fed e.2 = fed y) : cs.Perm ds := by
  have hsubset : cs ⊆ ds := by
    intro c hc
    obtain ⟨e, he, hkey, hfed⟩ := ListPairs.exists_mem_left (fedFields_iff.1 hcs) hc
    obtain ⟨y, hy, heq⟩ := hmember e he
    obtain ⟨d, hd, hkey', hfed'⟩ := ListPairs.exists_mem (fedFields_iff.1 hds) hy
    rw [heq, hfed', Option.some.injEq] at hfed
    have hcd : d = c := Prod.ext (hkey'.symm.trans hkey) hfed
    exact hcd ▸ hd
  have hdistinct : cs.Nodup := by
    apply List.Nodup.of_map (·.1)
    rw [fedFields_keys hcs]
    exact hnodup
  apply (List.subperm_of_subset hdistinct hsubset).perm_of_length_le
  rw [← (fedFields_iff.1 hcs).length_eq, ← (fedFields_iff.1 hds).length_eq, hlength]

/-- What a walk accepts is fed alike, if what it accepts of special objects or is answered is. -/
theorem fed_of_alike {E : Type} {objectEqual : HeldValue → HeldValue → Except E (Option Bool)}
    (halike : Alike objectEqual a b) {d : HeldValue}
    (ha : fed a = some c) (hb : fed b = some d) (hvalid : Valid a) (hvalid' : Valid b)
    (hanswered : ∀ x y, Paired a b x y → objectEqual x y = .ok (some true) ∨ x.isSpecial = true →
      Alike objectEqual x y → ∀ c d, fed x = some c → fed y = some d → c = d) : c = d := by
  induction halike generalizing c d with
  | refl => exact Option.some.inj (ha.symm.trans hb)
  | answered hobject hobject' hanswer =>
    exact hanswered _ _ .refl (.inl hanswer) (.answered hobject hobject' hanswer) c d ha hb
  | special hspecial hspecial' hnone hclass =>
    exact hanswered _ _ .refl (.inr hspecial) (.special hspecial hspecial' hnone hclass) c d ha hb
  | @array m n xs ys _ hlength hholes _ ih =>
    obtain ⟨cs, hcs, rfl⟩ := fed_array.1 ha
    obtain ⟨ds, hds, rfl⟩ := fed_array.1 hb
    have hlengths := (fedSlots_iff.1 hcs).length_eq.symm.trans
      (hlength.trans (fedSlots_iff.1 hds).length_eq)
    rw [Valid] at hvalid hvalid'
    congr 1
    apply List.ext_getElem?
    intro i
    cases hx : xs[i]? with
    | none =>
      rw [List.getElem?_eq_none_iff, (fedSlots_iff.1 hcs).length_eq] at hx
      rw [List.getElem?_eq_none_iff.2 hx, List.getElem?_eq_none_iff.2 (hlengths ▸ hx)]
    | some slot =>
      cases slot with
      | none => rw [(fedSlots_hole hcs).2 hx, (fedSlots_hole hds).2 ((hholes i).1 hx)]
      | some value =>
        have hy : ∃ value', ys[i]? = some (some value') := by
          cases hy : ys[i]? with
          | none =>
            rw [List.getElem?_eq_none_iff, ← hlength, ← List.getElem?_eq_none_iff, hx] at hy
            cases hy
          | some slot =>
            cases slot with
            | none => rw [(hholes i).2 hy] at hx; cases hx
            | some value' => exact ⟨value', rfl⟩
        obtain ⟨value', hy⟩ := hy
        obtain ⟨c, hc, hfed⟩ := fedSlots_value hcs hx
        obtain ⟨d, hd, hfed'⟩ := fedSlots_value hds hy
        rw [hc, hd, ih i value value' hx hy hfed hfed' (valid_of_getElem? hvalid hx)
          (valid_of_getElem? hvalid' hy)
          fun u v huv => hanswered u v (Paired.trans (.slot i .refl hx hy) huv)]
  | @record m n f g _ hlength hown _ ih =>
    obtain ⟨cs, hcs, rfl⟩ := fed_record.1 ha
    obtain ⟨ds, hds, rfl⟩ := fed_record.1 hb
    rw [Valid] at hvalid hvalid'
    have hperm : cs.Perm ds := by
      apply fedFields_perm hcs hds hvalid.1 hlength
      intro e he
      obtain ⟨y, hy⟩ := Option.isSome_iff_exists.1 (hown e he)
      have hmem := mem_of_get? hy
      obtain ⟨c, _, _, hc⟩ := ListPairs.exists_mem (fedFields_iff.1 hcs) he
      obtain ⟨d, _, _, hd⟩ := ListPairs.exists_mem (fedFields_iff.1 hds) hmem
      refine ⟨y, hmem, ?_⟩
      rw [hc, hd, ih e he y hy hc hd (valid_of_mem hvalid.2.2 he) (valid_of_mem hvalid'.2.2 hmem)
        fun u v huv => hanswered u v (Paired.trans (.member e.1 .refl he hy) huv)]
    congr 1
    apply Utf8.sortById_perm (·.1) hperm
    rw [fedFields_keys hcs]
    exact hvalid.1

/-- Values that the walk accepts are accepted at each place. -/
theorem alike_paired {x y : HeldValue} (halike : Alike (specialObjectEqual h) a b)
    (hvalid : Valid b) (hpaired : Paired a b x y) : Alike (specialObjectEqual h) x y ∧ Valid y := by
  induction hpaired with
  | refl => exact ⟨halike, hvalid⟩
  | slot i _ hx hy ih =>
    obtain ⟨ih, hvalid⟩ := ih
    rw [Valid] at hvalid
    refine ⟨?_, valid_of_getElem? hvalid hy⟩
    cases ih with
    | refl =>
      rw [hx] at hy
      cases hy
      exact .refl _
    | answered _ _ hanswer => cases (specialObjectEqual_true hanswer).1
    | array _ _ _ halike => exact halike i _ _ hx hy
    | special hspecial => cases hspecial
  | member key _ hx hy ih =>
    obtain ⟨ih, hvalid⟩ := ih
    rw [Valid] at hvalid
    refine ⟨?_, valid_of_mem hvalid.2.2 (mem_of_get? hy)⟩
    cases ih with
    | refl =>
      rw [get?_of_mem hvalid.1 hx] at hy
      cases hy
      exact .refl _
    | answered _ _ hanswer => cases (specialObjectEqual_true hanswer).1
    | record _ _ _ halike => exact halike _ hx _ hy
    | special hspecial => cases hspecial

theorem classesAgree_of_alike (halike : Alike (specialObjectEqual h) a b)
    (hvalid : Valid b) : ClassesAgree a b := by
  intro m n c d t u s r hpaired
  cases (alike_paired halike hvalid hpaired).1 with
  | refl => rfl
  | answered _ _ hanswer =>
    have hclass := (specialObjectEqual_true hanswer).2.2.1
    simpa [constructorOf] using hclass
  | special hspecial _ hnone => exact absurd hnone (not_declined hspecial)

theorem alike_special (ha : fed a = some c) (hb : fed b = some c)
    (hclash : NoClash h a b) (hspecial : a.isSpecial = true) (hspecial' : b.isSpecial = true)
    (hclass : constructorOf a = constructorOf b) : Alike (specialObjectEqual h) a b := by
  have hequal := valueEqual_ok ha hb (hclash a b .refl c c ha hb)
  apply Alike.answered (special_facts hspecial).1 (special_facts hspecial').1
  unfold specialObjectEqual
  rw [hspecial, hspecial', Bool.or_self, Bool.and_self, Bool.not_true, if_neg Bool.false_ne_true,
    if_neg Bool.false_ne_true, if_neg (not_not.2 hclass), hequal, decide_eq_true rfl]
  rfl

/-- What the walk of two fabric values accepts on an answer is fed alike. -/
theorem fed_of_answered {d : HeldValue} (ha : fed a = some c) (hb : fed b = some d)
    (hclash : NoClash h a b)
    (hanswer : specialObjectEqual h a b = .ok (some true) ∨ a.isSpecial = true)
    (halike : Alike (specialObjectEqual h) a b) : c = d := by
  have hanswered : specialObjectEqual h a b = .ok (some true) → c = d := by
    intro hanswer
    have hequal := (specialObjectEqual_true hanswer).2.2.2
    rw [valueEqual_ok ha hb (hclash _ _ .refl c d ha hb)] at hequal
    exact of_decide_eq_true (Except.ok.inj hequal)
  rcases hanswer with hanswer | hspecial
  · exact hanswered hanswer
  · cases halike with
    | refl => exact Option.some.inj (ha.symm.trans hb)
    | answered _ _ hanswer => exact hanswered hanswer
    | array => cases hspecial
    | record => cases hspecial
    | special _ _ hnone => exact absurd hnone (not_declined hspecial)

theorem constructorOf_of_fed (ha : fed a = some c) (hb : fed b = some c)
    (hkind : kind a = kind b) (hspecial : a.isSpecial = true) (hclasses : ClassesAgree a b) :
    constructorOf a = constructorOf b := by
  cases a with
  | primitive =>
    cases b with
    | primitive =>
      obtain ⟨_, _, rfl⟩ := fed_primitive.1 ha
      obtain ⟨_, _, heq⟩ := fed_primitive.1 hb
      cases heq
      rfl
    | _ => cases hkind
  | wrapped =>
    cases b with
    | wrapped =>
      rw [constructorOf, constructorOf, hclasses _ _ _ _ _ _ _ _ .refl]
    | _ => cases hkind
  | _ => cases hspecial

/-- Values that are fed alike are alike to a walk that declines what is not special, if the special
objects at each place are. -/
theorem alike_of_fed {E : Type} {objectEqual : HeldValue → HeldValue → Except E (Option Bool)}
    (ha : fed a = some c) (hb : fed b = some c)
    (hvalid : Valid a) (hvalid' : Valid b)
    (hdeclined : ∀ x y, Paired a b x y → x.isSpecial = false → y.isSpecial = false →
      objectEqual x y = .ok none)
    (hspecial : ∀ x y, Paired a b x y → x.isSpecial = true → y.isSpecial = true →
      kind x = kind y → ∀ c, fed x = some c → fed y = some c → Alike objectEqual x y) :
    Alike objectEqual a b := by
  have hkind : kind a = kind b := (kind_fed ha).symm.trans (kind_fed hb)
  induction hsize : sizeOf a using Nat.strongRecOn generalizing a b c with
  | ind size ih =>
    subst hsize
    cases a with
    | array m xs =>
      cases b with
      | array n ys =>
        obtain ⟨cs, hcs, rfl⟩ := fed_array.1 ha
        obtain ⟨ds, hds, heq⟩ := fed_array.1 hb
        cases heq
        rw [Valid] at hvalid hvalid'
        have hlength : xs.length = ys.length :=
          (fedSlots_iff.1 hcs).length_eq.trans (fedSlots_iff.1 hds).length_eq.symm
        apply Alike.array (hdeclined _ _ .refl rfl rfl) hlength
        · intro i
          rw [← fedSlots_hole hcs, fedSlots_hole hds]
        · intro i x y hx hy
          have hpaired : Paired (.array m xs) (.array n ys) x y := .slot i .refl hx hy
          obtain ⟨content, hc, hfed⟩ := fedSlots_value hcs hx
          obtain ⟨content', hd, hfed'⟩ := fedSlots_value hds hy
          rw [hc, Option.some.injEq, Option.some.injEq] at hd
          subst hd
          have hsmaller : sizeOf x < sizeOf (HeldValue.array m xs) := by
            have := List.sizeOf_lt_of_mem (List.mem_of_getElem? hx)
            simp only [HeldValue.array.sizeOf_spec, Option.some.sizeOf_spec] at this ⊢
            omega
          exact ih _ hsmaller hfed hfed' (valid_of_getElem? hvalid hx)
            (valid_of_getElem? hvalid' hy) (fun u v huv => hdeclined u v (hpaired.trans huv))
            (fun u v huv => hspecial u v (hpaired.trans huv))
            ((kind_fed hfed).symm.trans (kind_fed hfed')) rfl
      | _ => cases hkind
    | record m f =>
      cases b with
      | record n g =>
        obtain ⟨cs, hcs, rfl⟩ := fed_record.1 ha
        obtain ⟨ds, hds, heq⟩ := fed_record.1 hb
        rw [Valid] at hvalid hvalid'
        have hperm : cs.Perm ds := by
          have hsort := sortById_perm cs
          rw [(HeldValue.record.inj heq).2] at hsort
          exact hsort.symm.trans (sortById_perm ds)
        have hmember : ∀ e ∈ f, ∃ y content, (e.1, y) ∈ g ∧ get? g e.1 = some y ∧
            fed e.2 = some content ∧ fed y = some content := by
          intro e he
          obtain ⟨d, hd, hkey, hfed⟩ := ListPairs.exists_mem (fedFields_iff.1 hcs) he
          obtain ⟨e', he', hkey', hfed'⟩ :=
            ListPairs.exists_mem_left (fedFields_iff.1 hds) (hperm.subset hd)
          have heq : (e.1, e'.2) = e' := Prod.ext (hkey.trans hkey'.symm) rfl
          have hmem : (e.1, e'.2) ∈ g := heq.symm ▸ he'
          exact ⟨e'.2, d.2, hmem, get?_of_mem hvalid'.1 hmem, hfed, hfed'⟩
        apply Alike.record (hdeclined _ _ .refl rfl rfl)
        · rw [(fedFields_iff.1 hcs).length_eq, hperm.length_eq, ← (fedFields_iff.1 hds).length_eq]
        · intro e he
          obtain ⟨y, _, _, hget, _⟩ := hmember e he
          rw [hget]
          rfl
        · intro e he y hy
          obtain ⟨y', content, hmem, hget, hfed, hfed'⟩ := hmember e he
          rw [hget, Option.some.injEq] at hy
          subst hy
          have hpaired : Paired (.record m f) (.record n g) e.2 y' := .member e.1 .refl he hget
          have hsmaller : sizeOf e.2 < sizeOf (HeldValue.record m f) := by
            have := List.sizeOf_lt_of_mem he
            obtain ⟨key, x⟩ := e
            simp only [HeldValue.record.sizeOf_spec, Prod.mk.sizeOf_spec] at this ⊢
            omega
          exact ih _ hsmaller hfed hfed' (valid_of_mem hvalid.2.2 he) (valid_of_mem hvalid'.2.2 hmem)
            (fun u v huv => hdeclined u v (hpaired.trans huv))
            (fun u v huv => hspecial u v (hpaired.trans huv))
            ((kind_fed hfed).symm.trans (kind_fed hfed')) rfl
      | _ => cases hkind
    | primitive =>
      cases b with
      | primitive => exact hspecial _ _ .refl rfl rfl hkind c ha hb
      | _ => cases hkind
    | wrapped =>
      cases b with
      | wrapped => exact hspecial _ _ .refl rfl rfl hkind c ha hb
      | _ => cases hkind
    | _ =>
      have hleaf : b.isObject = false := by
        rw [← Bool.not_eq_true, isObject_iff, ← hkind, not_not]
        rfl
      rw [fed_of_not_object hleaf] at hb
      cases ha
      cases hb
      exact .refl _

theorem fed_parts {x y d : HeldValue} (hpaired : Paired a b x y) (ha : fed a = some c)
    (hb : fed b = some d) : (∃ c', fed x = some c') ∧ ∃ d', fed y = some d' := by
  induction hpaired with
  | refl => exact ⟨⟨c, ha⟩, d, hb⟩
  | slot i _ hx hy ih =>
    obtain ⟨⟨_, hc⟩, _, hd⟩ := ih
    obtain ⟨cs, hcs, -⟩ := fed_array.1 hc
    obtain ⟨ds, hds, -⟩ := fed_array.1 hd
    obtain ⟨c', -, hfed⟩ := fedSlots_value hcs hx
    obtain ⟨d', -, hfed'⟩ := fedSlots_value hds hy
    exact ⟨⟨c', hfed⟩, d', hfed'⟩
  | member key _ hx hy ih =>
    obtain ⟨⟨_, hc⟩, _, hd⟩ := ih
    obtain ⟨cs, hcs, -⟩ := fed_record.1 hc
    obtain ⟨ds, hds, -⟩ := fed_record.1 hd
    obtain ⟨c', _, _, hfed⟩ := ListPairs.exists_mem (fedFields_iff.1 hcs) hx
    obtain ⟨d', _, _, hfed'⟩ := ListPairs.exists_mem (fedFields_iff.1 hds) (mem_of_get? hy)
    exact ⟨⟨c'.2, hfed⟩, d'.2, hfed'⟩

theorem specialObjectEqual_ok {d : HeldValue} (ha : fed a = some c) (hb : fed b = some d)
    (hclash : NoClash h a b) : ∃ answer, specialObjectEqual h a b = .ok answer := by
  unfold specialObjectEqual
  split
  · exact ⟨_, rfl⟩
  · split
    · exact ⟨_, rfl⟩
    · split
      · exact ⟨_, rfl⟩
      · rw [valueEqual_ok ha hb (hclash a b .refl c d ha hb)]
        exact ⟨_, rfl⟩

/-- Of two values that can be hashed, the walk finds those alike that are fed alike and have
instances of one class at each place. -/
theorem fabricAwareEqual_ok {d : HeldValue} (ha : fed a = some c) (hb : fed b = some d)
    (hvalid : Valid a) (hvalid' : Valid b) (hclash : NoClash h a b) :
    ∃ r, fabricAwareEqual h a b = .ok r ∧ (r = true ↔ c = d ∧ ClassesAgree a b) := by
  obtain ⟨r, hr⟩ : ∃ r, fabricAwareEqual h a b = .ok r := by
    apply deepEqual_ok
    intro x y hpaired _ _
    obtain ⟨⟨c', hc⟩, d', hd⟩ := fed_parts hpaired ha hb
    exact specialObjectEqual_ok hc hd (hclash.paired hpaired)
  refine ⟨r, hr, ?_⟩
  have hiff : r = true ↔ Alike (specialObjectEqual h) a b := by
    rw [← deepEqual_iff]
    show _ ↔ fabricAwareEqual h a b = _
    rw [hr, Except.ok.injEq]
  rw [hiff]
  constructor
  · intro halike
    refine ⟨fed_of_alike halike ha hb hvalid hvalid' fun x y hpaired hanswer halike c d hc hd => ?_,
      classesAgree_of_alike halike hvalid'⟩
    exact fed_of_answered hc hd (hclash.paired hpaired) hanswer halike
  · rintro ⟨rfl, hclasses⟩
    apply alike_of_fed ha hb hvalid hvalid' fun x y _ hx hy => specialObjectEqual_none hx hy
    intro x y hpaired hx hy hkind c hc hd
    exact alike_special hc hd (hclash.paired hpaired) hx hy
      (constructorOf_of_fed hc hd hkind hx (hclasses.paired hpaired))

end

/-- A value the model admits. -/
structure Operand where
  value : HeldValue
  valid : value.Valid

/-- Where `valueEqual` returns of two values whose digests do not clash, `fabricAwareEqual` returns
the same, but for values of one content that hold instances of two classes at one place. -/
theorem fabricAwareEqual_agrees_iff (h : Hashing) (a b : Operand)
    (hclash : NoClash h a.value b.value) :
    (∀ r, valueEqual h a.value b.value = .ok r → fabricAwareEqual h a.value b.value = .ok r) ↔
      ∀ c, fed a.value = some c → fed b.value = some c → ClassesAgree a.value b.value := by
  cases ha : fed a.value with
  | none =>
    constructor
    · intro _ c hc
      cases hc
    · intro _ r hequal
      exact fabricAwareEqual_refused hequal (by rw [ha]; simp)
  | some c =>
    cases hb : fed b.value with
    | none =>
      constructor
      · intro _ _ _ hc
        cases hc
      · intro _ r hequal
        exact fabricAwareEqual_refused hequal (by rw [hb]; simp)
    | some d =>
      obtain ⟨r, hr, hiff⟩ := fabricAwareEqual_ok ha hb a.valid b.valid hclash
      rw [valueEqual_ok ha hb (hclash _ _ .refl c d ha hb), hr]
      constructor
      · rintro hagree e ⟨⟩ ⟨⟩
        have htrue := hagree true (by rw [decide_eq_true rfl])
        exact (hiff.1 (Except.ok.inj htrue)).2
      · intro hclasses s hs
        rw [← hs]
        congr 1
        rw [Bool.eq_iff_iff, hiff, decide_eq_true_iff]
        constructor
        · exact And.left
        · rintro rfl
          exact ⟨rfl, hclasses c rfl rfl⟩

/-- A link, by its payload. -/
def link (address : Nat) (payload : Fields) : HeldValue :=
  .wrapped address "FabricLink" "Link@1" (some (.record (address + 1) payload))

/-- A digest that tells the values below apart. -/
def sampleHashing : Hashing where
  digest c := if some c = fed (link 0 []) then "empty" else "other"
  isDeepFrozen _ := .ok false
  isDeepFrozen_ok _ _ _ := ⟨false, rfl⟩

/-- A special object is paired with nothing but what it is compared with. -/
theorem paired_special {b x y : HeldValue} (hspecial : a.isSpecial = true)
    (hpaired : Paired a b x y) : x = a ∧ y = b := by
  induction hpaired with
  | refl => exact ⟨rfl, rfl⟩
  | slot _ _ _ _ ih => rw [← ih.1] at hspecial; cases hspecial
  | member _ _ _ _ ih => rw [← ih.1] at hspecial; cases hspecial

theorem noClash_special {h : Hashing} {b : HeldValue} (hspecial : a.isSpecial = true)
    (hdigest : ∀ c d, fed a = some c → fed b = some d → h.digest c = h.digest d → c = d) :
    NoClash h a b := by
  intro x y hpaired
  obtain ⟨rfl, rfl⟩ := paired_special hspecial hpaired
  exact hdigest

theorem fabricAwareEqual_agrees_links :
    let a : Operand := ⟨link 1 [], by simp [link, Valid, ValidSlot, ValidFields]⟩
    let b : Operand := ⟨link 3 [("id", .null)],
      by simp [link, Valid, ValidSlot, ValidFields, reservedNames]; decide⟩
    ∀ r, valueEqual sampleHashing a.value b.value = .ok r →
      fabricAwareEqual sampleHashing a.value b.value = .ok r := by
  intro a b
  apply (fabricAwareEqual_agrees_iff sampleHashing a b _).2
  · intro c hc hc'
    rw [show fed a.value = fed (link 0 []) from rfl] at hc
    rw [← hc] at hc'
    exact absurd hc' (by decide +kernel)
  · apply noClash_special rfl
    intro c d hc hd hdigest
    cases hc
    cases hd
    exact absurd hdigest (by decide +kernel)

/-- A value of no known class that preserves the tag and the state of a link is equal to the link
for `valueEqual`, and not for `fabricAwareEqual`. -/
theorem preserved_link_not_equal :
    let known := link 1 []
    let unknown := HeldValue.wrapped 3 "UnknownValue" "Link@1" (some (.record 4 []))
    known.Valid ∧ unknown.Valid ∧ NoClash sampleHashing known unknown ∧
      valueEqual sampleHashing known unknown = .ok true ∧
      fabricAwareEqual sampleHashing known unknown = .ok false := by
  refine ⟨by simp [link, Valid, ValidSlot, ValidFields], by simp [Valid, ValidSlot, ValidFields],
    noClash_special rfl ?_, by decide +kernel, by decide +kernel⟩
  intro c d hc hd _
  exact Option.some.inj (hc.symm.trans hd)

end HeldValue
