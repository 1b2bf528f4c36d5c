import Mathlib.Data.List.Sort
import CommonFabric.FieldOrder

/-!
# The UTF-8 order of strings

Strings are compared by the byte order of their encodings, which is the order of their code
points, a lone surrogate taken as the code point of the same value. The comparison walks the
code units, and looks at code points only where the first difference involves a surrogate.
-/

namespace Utf8

def isSurrogateCharCode (u : UInt16) : Bool := 0xD800 ≤ u.toNat && u.toNat ≤ 0xDFFF

def isHighSurrogateCharCode (u : UInt16) : Bool := 0xD800 ≤ u.toNat && u.toNat ≤ 0xDBFF

def isLowSurrogateCharCode (u : UInt16) : Bool := 0xDC00 ≤ u.toNat && u.toNat ≤ 0xDFFF

/-- The code point of a surrogate pair. -/
def pairPoint (high low : UInt16) : Nat :=
  0x10000 + (high.toNat - 0xD800) * 0x400 + (low.toNat - 0xDC00)

/-- `codePointAt(0)`, of a string that is not empty. -/
def codePointAt : List UInt16 → Nat
  | high :: low :: _ =>
    if isHighSurrogateCharCode high && isLowSurrogateCharCode low then pairPoint high low
    else high.toNat
  | [u] => u.toNat
  | [] => 0

/-- The loop of `utf8Compare`, with the code unit before the two rests, which they share. -/
def compareUnits : Option UInt16 → List UInt16 → List UInt16 → Int
  | previous, a :: as, b :: bs =>
    if a = b then compareUnits (some a) as bs
    else if !(isSurrogateCharCode a || isSurrogateCharCode b) then (a.toNat : Int) - b.toNat
    else
      let points : Int := (codePointAt (a :: as) : Int) - codePointAt (b :: bs)
      match previous with
      | none => points
      | some u =>
        if isHighSurrogateCharCode u then
          let aPrevPoint := codePointAt (u :: a :: as)
          let bPrevPoint := codePointAt (u :: b :: bs)
          if aPrevPoint ≠ bPrevPoint then (aPrevPoint : Int) - bPrevPoint else points
        else points
  | _, as, bs => (as.length : Int) - bs.length

/-- `utf8Compare`. Where neither string has a surrogate it may compare the long ones natively,
which is the same there. -/
def utf8Compare (a b : JsString) : Int :=
  if a = b then 0
  else if 20 ≤ min a.units.length b.units.length &&
      !(a.units.any isSurrogateCharCode || b.units.any isSurrogateCharCode) then
    if a.lt b then -1 else if b.lt a then 1 else 0
  else compareUnits none a.units b.units

def codePoints : List UInt16 → List Nat
  | high :: low :: rest =>
    if isHighSurrogateCharCode high && isLowSurrogateCharCode low then
      pairPoint high low :: codePoints rest
    else high.toNat :: codePoints (low :: rest)
  | [u] => [u.toNat]
  | [] => []

/-- What is left after the first code point. -/
def afterPoint : List UInt16 → List UInt16
  | high :: low :: rest =>
    if isHighSurrogateCharCode high && isLowSurrogateCharCode low then rest else low :: rest
  | [_] => []
  | [] => []

theorem codePoints_cons (u : UInt16) (rest : List UInt16) :
    codePoints (u :: rest) = codePointAt (u :: rest) :: codePoints (afterPoint (u :: rest)) := by
  cases rest with
  | nil => rfl
  | cons v rest =>
    rw [codePoints, codePointAt, afterPoint]
    split <;> rfl

variable {u : UInt16}

/-- A code unit that is no high surrogate is a code point of its own, or ends one. -/
theorem codePoints_cons_of_not_high (h : isHighSurrogateCharCode u = false)
    (rest : List UInt16) : codePoints (u :: rest) = u.toNat :: codePoints rest := by
  cases rest with
  | nil => rfl
  | cons v rest => simp [codePoints, h]

theorem codePointAt_of_not_high (h : isHighSurrogateCharCode u = false)
    (rest : List UInt16) : codePointAt (u :: rest) = u.toNat := by
  cases rest with
  | nil => rfl
  | cons v rest => simp [codePointAt, h]

/-- The lexicographic order of lists of code points, as a comparison. -/
def Before : List Nat → List Nat → Prop
  | _, [] => False
  | [], _ :: _ => True
  | p :: ps, q :: qs => p < q ∨ (p = q ∧ Before ps qs)

theorem before_irrefl (ps : List Nat) : ¬Before ps ps := by
  induction ps with
  | nil => exact id
  | cons p ps ih => simp [Before, ih]

theorem before_trans {ps qs rs : List Nat} (h : Before ps qs) (h' : Before qs rs) :
    Before ps rs := by
  induction ps generalizing qs rs with
  | nil =>
    cases rs with
    | nil => cases qs <;> exact h'
    | cons r rs => trivial
  | cons p ps ih =>
    cases qs with
    | nil => exact h.elim
    | cons q qs =>
      cases rs with
      | nil => exact h'.elim
      | cons r rs =>
        rcases h with hpq | ⟨rfl, h⟩
        · rcases h' with hqr | ⟨rfl, h'⟩
          · exact .inl (by omega)
          · exact .inl hpq
        · rcases h' with hqr | ⟨rfl, h'⟩
          · exact .inl hqr
          · exact .inr ⟨rfl, ih h h'⟩

theorem before_cons_self {p : Nat} {ps qs : List Nat} : Before (p :: ps) (p :: qs) ↔ Before ps qs := by
  simp [Before]

theorem high_iff :
    isHighSurrogateCharCode u = true ↔ 0xD800 ≤ u.toNat ∧ u.toNat ≤ 0xDBFF := by
  simp [isHighSurrogateCharCode]

theorem low_iff :
    isLowSurrogateCharCode u = true ↔ 0xDC00 ≤ u.toNat ∧ u.toNat ≤ 0xDFFF := by
  simp [isLowSurrogateCharCode]

theorem not_high_of_low (h : isLowSurrogateCharCode u = true) :
    isHighSurrogateCharCode u = false := by
  rw [Bool.eq_false_iff, Ne, high_iff]
  rw [low_iff] at h
  omega

theorem low_of_not_surrogate (h : isSurrogateCharCode u = false) :
    isLowSurrogateCharCode u = false ∧ isHighSurrogateCharCode u = false := by
  simp only [isSurrogateCharCode, Bool.and_eq_false_iff, decide_eq_false_iff_not] at h
  constructor
  · rw [Bool.eq_false_iff, Ne, low_iff]
    omega
  · rw [Bool.eq_false_iff, Ne, high_iff]
    omega

/-- A high surrogate and what follows it: one code point with a low one, else two. -/
theorem codePoints_pair (u a : UInt16) (as : List UInt16) :
    codePoints (u :: a :: as) =
      if isHighSurrogateCharCode u && isLowSurrogateCharCode a then pairPoint u a :: codePoints as
      else u.toNat :: codePoints (a :: as) := rfl

theorem codePointAt_pair (u a : UInt16) (as : List UInt16) :
    codePointAt (u :: a :: as) =
      if isHighSurrogateCharCode u && isLowSurrogateCharCode a then pairPoint u a else u.toNat := rfl

theorem toNat_lt_pairPoint_base (u : UInt16) : u.toNat < 0x10000 := by
  have := u.toNat_lt
  omega

theorem pairPoint_ge (u a : UInt16) : 0x10000 ≤ pairPoint u a := by
  unfold pairPoint
  omega

/-- A pair of surrogates is read back from its code point. -/
theorem pairPoint_inj {a v b : UInt16} (hu : isHighSurrogateCharCode u = true)
    (ha : isLowSurrogateCharCode a = true) (hv : isHighSurrogateCharCode v = true)
    (hb : isLowSurrogateCharCode b = true) (h : pairPoint u a = pairPoint v b) : u = v ∧ a = b := by
  rw [high_iff] at hu hv
  rw [low_iff] at ha hb
  unfold pairPoint at h
  constructor
  · apply UInt16.toNat_inj.1
    omega
  · apply UInt16.toNat_inj.1
    omega

/-- Strings with the same first code point have the same first unit. -/
theorem codePointAt_inj {a b : UInt16} {as bs : List UInt16}
    (h : codePointAt (a :: as) = codePointAt (b :: bs)) : a = b := by
  have hbound := toNat_lt_pairPoint_base
  have hform : ∀ (u : UInt16) (us : List UInt16), codePointAt (u :: us) = u.toNat ∨
      ∃ v, isHighSurrogateCharCode u = true ∧ isLowSurrogateCharCode v = true ∧
        codePointAt (u :: us) = pairPoint u v := by
    intro u us
    cases us with
    | nil => exact .inl rfl
    | cons v us =>
      rw [codePointAt_pair]
      split
      case isTrue hpair =>
        rw [Bool.and_eq_true] at hpair
        exact .inr ⟨v, hpair.1, hpair.2, rfl⟩
      case isFalse _ => exact .inl rfl
  apply UInt16.toNat_inj.1
  rcases hform a as with ha | ⟨v, hav, hv, ha⟩ <;> rcases hform b bs with hb | ⟨w, hbw, hw, hb⟩
  · omega
  · have := pairPoint_ge b w
    have := hbound a
    omega
  · have := pairPoint_ge a v
    have := hbound b
    omega
  · rw [ha, hb] at h
    rw [(pairPoint_inj hav hv hbw hw h).1]

/-- The sign of a comparison says which of two lists of code points comes before the other. -/
def Signed (answer : Int) (ps qs : List Nat) : Prop :=
  (answer < 0 ∧ Before ps qs) ∨ (0 < answer ∧ Before qs ps)

theorem Signed.cons {answer : Int} {ps qs : List Nat} (h : Signed answer ps qs) (p : Nat) :
    Signed answer (p :: ps) (p :: qs) :=
  h.imp (And.imp_right before_cons_self.2) (And.imp_right before_cons_self.2)

theorem signed_sub {p q : Nat} (hne : p ≠ q) (ps qs : List Nat) :
    Signed ((p : Int) - q) (p :: ps) (q :: qs) := by
  rcases Nat.lt_or_gt_of_ne hne with h | h
  · exact .inl ⟨by omega, .inl h⟩
  · exact .inr ⟨by omega, .inl h⟩

theorem signed_points {a b : UInt16} (hne : a ≠ b) (as bs : List UInt16) :
    Signed ((codePointAt (a :: as) : Int) - codePointAt (b :: bs)) (codePoints (a :: as))
      (codePoints (b :: bs)) := by
  rw [codePoints_cons a, codePoints_cons b]
  exact signed_sub (fun h => hne (codePointAt_inj h)) _ _

/-- A string is before any that goes on where it ends. -/
theorem before_append (previous : Option UInt16) (b : UInt16) (bs : List UInt16) :
    Before (codePoints previous.toList) (codePoints (previous.toList ++ b :: bs)) := by
  cases previous with
  | none =>
    rw [Option.toList_none, List.nil_append, codePoints_cons]
    trivial
  | some u =>
    rw [Option.toList_some, List.singleton_append, codePoints_pair]
    split
    · have := pairPoint_ge u b
      exact .inl (Nat.lt_of_lt_of_le (toNat_lt_pairPoint_base u) this)
    · refine .inr ⟨rfl, ?_⟩
      rw [codePoints_cons]
      trivial

/-- A high surrogate before both strings: where both leave it alone, or both pair it, the
code points that start with it are the same. -/
theorem signed_shared {a b : UInt16} (hne : a ≠ b) (as bs : List UInt16) (answer : Int)
    (h : Signed answer (codePoints (a :: as)) (codePoints (b :: bs))) :
    (codePointAt (u :: a :: as) ≠ codePointAt (u :: b :: bs) →
      Signed ((codePointAt (u :: a :: as) : Int) - codePointAt (u :: b :: bs))
        (codePoints (u :: a :: as)) (codePoints (u :: b :: bs))) ∧
    (codePointAt (u :: a :: as) = codePointAt (u :: b :: bs) →
      Signed answer (codePoints (u :: a :: as)) (codePoints (u :: b :: bs))) := by
  constructor
  · intro hpoint
    rw [codePoints_cons u (a :: as), codePoints_cons u (b :: bs)]
    exact signed_sub hpoint _ _
  · intro hpoint
    rw [codePointAt_pair, codePointAt_pair] at hpoint
    rw [codePoints_pair, codePoints_pair]
    have hbound := toNat_lt_pairPoint_base u
    split at hpoint
    case isTrue ha =>
      split at hpoint
      case isTrue hb =>
        rw [Bool.and_eq_true] at ha hb
        exact absurd (pairPoint_inj ha.1 ha.2 hb.1 hb.2 hpoint).2 hne
      case isFalse _ =>
        have := pairPoint_ge u a
        omega
    case isFalse ha =>
      split at hpoint
      case isTrue hb =>
        have := pairPoint_ge u b
        omega
      case isFalse hb =>
        rw [if_neg ha, if_neg hb]
        exact h.cons u.toNat

theorem signed_compareUnits (previous : Option UInt16) (as bs : List UInt16) (hne : as ≠ bs) :
    Signed (compareUnits previous as bs) (codePoints (previous.toList ++ as))
      (codePoints (previous.toList ++ bs)) := by
  induction as generalizing previous bs with
  | nil =>
    cases bs with
    | nil => exact absurd rfl hne
    | cons b bs =>
      rw [List.append_nil]
      refine .inl ⟨?_, before_append previous b bs⟩
      simp only [compareUnits, List.length_nil, List.length_cons]
      omega
  | cons a as ih =>
    cases bs with
    | nil =>
      rw [List.append_nil]
      refine .inr ⟨?_, before_append previous a as⟩
      simp only [compareUnits, List.length_nil, List.length_cons]
      omega
    | cons b bs =>
      by_cases hab : a = b
      · -- The first units are the same: they pair with what is before alike.
        subst hab
        have hrest := ih (some a) bs (fun h => hne (by rw [h]))
        rw [Option.toList_some, List.singleton_append, List.singleton_append] at hrest
        have hcompare : compareUnits previous (a :: as) (a :: bs) = compareUnits (some a) as bs := by
          simp [compareUnits]
        rw [hcompare]
        cases previous with
        | none => exact hrest
        | some u =>
          rw [Option.toList_some, List.singleton_append, List.singleton_append, codePoints_pair,
            codePoints_pair]
          split
          case isTrue hpair =>
            rw [Bool.and_eq_true] at hpair
            have hhigh := not_high_of_low hpair.2
            rw [codePoints_cons_of_not_high hhigh, codePoints_cons_of_not_high hhigh] at hrest
            refine Signed.cons (hrest.imp ?_ ?_) _
            · exact And.imp_right before_cons_self.1
            · exact And.imp_right before_cons_self.1
          case isFalse _ => exact hrest.cons u.toNat
      · have hpoints := signed_points hab as bs
        by_cases hplain : (isSurrogateCharCode a || isSurrogateCharCode b) = false
        · -- Neither first unit is a surrogate: each is a code point of its own.
          obtain ⟨ha, hb⟩ := Bool.or_eq_false_iff.1 hplain
          have hcompare : compareUnits previous (a :: as) (b :: bs) =
              (codePointAt (a :: as) : Int) - codePointAt (b :: bs) := by
            rw [codePointAt_of_not_high (low_of_not_surrogate ha).2,
              codePointAt_of_not_high (low_of_not_surrogate hb).2]
            simp [compareUnits, hab, hplain]
          rw [hcompare]
          cases previous with
          | none => exact hpoints
          | some u =>
            rw [Option.toList_some, List.singleton_append, List.singleton_append, codePoints_pair,
              codePoints_pair]
            simp only [(low_of_not_surrogate ha).1, (low_of_not_surrogate hb).1, Bool.and_false,
              Bool.false_eq_true, if_false]
            exact hpoints.cons u.toNat
        · rw [Bool.not_eq_false] at hplain
          cases previous with
          | none => simpa [compareUnits, hab, hplain] using hpoints
          | some u =>
            rw [Option.toList_some, List.singleton_append, List.singleton_append]
            by_cases hhigh : isHighSurrogateCharCode u = true
            · obtain ⟨hdiffer, hsame⟩ := signed_shared hab as bs _ hpoints
              by_cases hpoint : codePointAt (u :: a :: as) = codePointAt (u :: b :: bs)
              · have := hsame hpoint
                simpa [compareUnits, hab, hplain, hhigh, hpoint] using this
              · have := hdiffer hpoint
                simpa [compareUnits, hab, hplain, hhigh, hpoint] using this
            · rw [Bool.not_eq_true] at hhigh
              rw [codePoints_cons_of_not_high hhigh, codePoints_cons_of_not_high hhigh]
              have := hpoints.cons u.toNat
              simpa [compareUnits, hab, hplain, hhigh] using this

/-- Strings without surrogates compare unit by unit as by code points. -/
theorem before_of_ltUnits {as bs : List UInt16} (ha : as.any isSurrogateCharCode = false)
    (hb : bs.any isSurrogateCharCode = false) (h : JsString.ltUnits as bs = true) :
    Before (codePoints as) (codePoints bs) := by
  induction as generalizing bs with
  | nil =>
    cases bs with
    | nil => cases h
    | cons b bs => rw [codePoints_cons b bs]; trivial
  | cons a as ih =>
    cases bs with
    | nil => cases h
    | cons b bs =>
      rw [List.any_cons, Bool.or_eq_false_iff] at ha hb
      rw [codePoints_cons_of_not_high (low_of_not_surrogate ha.1).2,
        codePoints_cons_of_not_high (low_of_not_surrogate hb.1).2]
      simp only [JsString.ltUnits, Bool.or_eq_true, decide_eq_true_eq, Bool.and_eq_true] at h
      rcases h with h | ⟨rfl, h⟩
      · exact .inl (UInt16.lt_iff_toNat_lt.1 h)
      · exact .inr ⟨rfl, ih ha.2 hb.2 h⟩

theorem signed_utf8Compare {a b : JsString} (hne : a ≠ b) :
    Signed (utf8Compare a b) (codePoints a.units) (codePoints b.units) := by
  rw [utf8Compare, if_neg hne]
  split
  case isTrue hplain =>
    rw [Bool.and_eq_true, Bool.not_eq_true', Bool.or_eq_false_iff] at hplain
    obtain ⟨_, ha, hb⟩ := hplain
    cases hlt : a.lt b with
    | true => exact .inl ⟨by simp, before_of_ltUnits ha hb hlt⟩
    | false =>
      have hgt := JsString.lt_total hne hlt
      refine .inr ⟨by simp [hgt], before_of_ltUnits hb ha hgt⟩
  case isFalse _ =>
    exact signed_compareUnits none a.units b.units fun h => hne (by cases a; cases b; simp_all)

theorem utf8Compare_self (a : JsString) : utf8Compare a a = 0 := by simp [utf8Compare]

/-- The comparison is negative where the code points come before, and only there. -/
theorem utf8Compare_neg_iff {a b : JsString} :
    utf8Compare a b < 0 ↔ Before (codePoints a.units) (codePoints b.units) := by
  by_cases hab : a = b
  · rw [hab, utf8Compare_self]
    exact iff_of_false (by omega) (before_irrefl _)
  · rcases signed_utf8Compare hab with ⟨hsign, hbefore⟩ | ⟨hsign, hbefore⟩
    · exact iff_of_true hsign hbefore
    · exact iff_of_false (by omega) fun h => before_irrefl _ (before_trans h hbefore)

theorem utf8Compare_pos_iff {a b : JsString} :
    0 < utf8Compare a b ↔ Before (codePoints b.units) (codePoints a.units) := by
  by_cases hab : a = b
  · rw [hab, utf8Compare_self]
    exact iff_of_false (by omega) (before_irrefl _)
  · rcases signed_utf8Compare hab with ⟨hsign, hbefore⟩ | ⟨hsign, hbefore⟩
    · exact iff_of_false (by omega) fun h => before_irrefl _ (before_trans h hbefore)
    · exact iff_of_true hsign hbefore

/-- `a` does not sort after `b`. -/
def le (a b : JsString) : Prop := utf8Compare a b ≤ 0

instance : DecidableRel le := fun a b => inferInstanceAs (Decidable (utf8Compare a b ≤ 0))

theorem le_iff {a b : JsString} :
    le a b ↔ a = b ∨ Before (codePoints a.units) (codePoints b.units) := by
  by_cases hab : a = b
  · simp [le, hab, utf8Compare]
  · rw [le]
    rcases signed_utf8Compare hab with ⟨hsign, hbefore⟩ | ⟨hsign, hbefore⟩
    · exact ⟨fun _ => .inr hbefore, fun _ => Int.le_of_lt hsign⟩
    · refine ⟨fun h => by omega, fun h => ?_⟩
      rcases h with h | h
      · exact absurd h hab
      · exact absurd (before_trans h hbefore) (before_irrefl _)

theorem le_trans {a b c : JsString} (hab : le a b) (hbc : le b c) : le a c := by
  rw [le_iff] at hab hbc ⊢
  rcases hab with rfl | hab
  · exact hbc
  · rcases hbc with rfl | hbc
    · exact .inr hab
    · exact .inr (before_trans hab hbc)

theorem le_total (a b : JsString) : le a b ∨ le b a := by
  rw [le_iff, le_iff]
  by_cases hab : a = b
  · exact .inl (.inl hab)
  · rcases signed_utf8Compare hab with ⟨_, h⟩ | ⟨_, h⟩
    · exact .inl (.inr h)
    · exact .inr (.inr h)

theorem le_antisymm {a b : JsString} (hab : le a b) (hba : le b a) : a = b := by
  rw [le_iff] at hab hba
  rcases hab with h | hab
  · exact h
  · rcases hba with h | hba
    · exact h.symm
    · exact absurd (before_trans hab hba) (before_irrefl _)

instance {α : Type*} (id : α → JsString) : Std.Total fun a b : α => le (id a) (id b) :=
  ⟨fun a b => le_total (id a) (id b)⟩

instance {α : Type*} (id : α → JsString) : IsTrans α fun a b : α => le (id a) (id b) :=
  ⟨fun _ _ _ => le_trans⟩

/-- `sort((a, b) => utf8Compare(a.id, b.id))`. -/
def sortById {α : Type*} (id : α → JsString) (xs : List α) : List α :=
  xs.insertionSort fun a b => le (id a) (id b)

/-- Under distinct names the sorted list depends on the members only. -/
theorem sortById_perm {α : Type*} (id : α → JsString) {xs ys : List α} (h : xs.Perm ys)
    (hnodup : (xs.map id).Nodup) : sortById id xs = sortById id ys := by
  have hsort (zs : List α) : (sortById id zs).Perm zs := List.perm_insertionSort _ zs
  have hperm := ((hsort xs).trans h).trans (hsort ys).symm
  refine hperm.eq_of_pairwise ?_ (List.pairwise_insertionSort _ xs)
    (List.pairwise_insertionSort _ ys)
  intro a b ha hb hab hba
  exact List.inj_on_of_nodup_map hnodup ((hsort xs).mem_iff.1 ha)
    (h.mem_iff.2 ((hsort ys).mem_iff.1 hb)) (le_antisymm hab hba)

end Utf8
