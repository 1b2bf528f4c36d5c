import CommonFabric.CollectionIndex
import CommonFabric.OrderedEntries

/-!
# One bucket of an index

Occurrences come in the order of their encodings, and keys by kind and then by value. A bucket
stands for a list of occurrences with their elements, in the order of the occurrences. Whatever of
the caches is there, a change of one occurrence leaves the bucket standing for the list with the
occurrence put into it or taken from it.
-/

namespace Utf8

theorem utf8Compare_lawful : OrderedEntries.LawfulCompare utf8Compare where
  eq a b h := by
    by_contra hne
    rcases signed_utf8Compare hne with ⟨hsign, _⟩ | ⟨hsign, _⟩ <;> omega
  swap a b := by rw [utf8Compare_neg_iff, utf8Compare_pos_iff]
  trans a b c hab hbc := by
    rw [utf8Compare_neg_iff] at hab hbc ⊢
    exact before_trans hab hbc

end Utf8

namespace CollectionKeyIdentity

open Utf8

theorem compareNumbers_lawful : OrderedEntries.LawfulCompare fun x y : ℚ =>
    (if x < y then -1 else if y < x then 1 else 0 : ℤ) where
  eq x y h := by
    split at h
    · omega
    · split at h
      · omega
      · exact le_antisymm (not_lt.1 ‹_›) (not_lt.1 ‹_›)
  swap x y := by
    rcases lt_trichotomy x y with h | h | h
    · simp [h, not_lt.2 (le_of_lt h)]
    · simp [h]
    · simp [h, not_lt.2 (le_of_lt h)]
  trans x y z hxy hyz := by
    have neg {x y : ℚ} : (if x < y then -1 else if y < x then 1 else 0 : ℤ) < 0 ↔ x < y := by
      rcases lt_trichotomy x y with h | h | h
      · simp [h]
      · simp [h]
      · simp [h, not_lt.2 (le_of_lt h)]
    exact neg.2 (lt_trans (neg.1 hxy) (neg.1 hyz))

theorem compareCollectionKeys_lawful :
    OrderedEntries.LawfulCompare compareCollectionKeys where
  eq a b h := by
    cases a <;> cases b <;> simp [compareCollectionKeys, keyDomainOrder] at h ⊢
    case boolean.boolean x y => cases x <;> cases y <;> simp_all
    case number.number => exact compareNumbers_lawful.eq _ _ h
    case string.string => exact utf8Compare_lawful.eq _ _ h
    case cell.cell => exact utf8Compare_lawful.eq _ _ h
  swap a b := by
    cases a <;> cases b <;> simp [compareCollectionKeys, keyDomainOrder]
    case number.number => exact compareNumbers_lawful.swap _ _
    case string.string => exact utf8Compare_lawful.swap _ _
    case cell.cell => exact utf8Compare_lawful.swap _ _
  trans a b c hab hbc := by
    cases a <;> cases b <;> simp [compareCollectionKeys, keyDomainOrder] at hab <;> cases c <;>
      simp [compareCollectionKeys, keyDomainOrder] at hbc ⊢
    case boolean.boolean.boolean => exact Nat.lt_trans hab hbc
    case number.number.number => exact compareNumbers_lawful.trans _ _ _ hab hbc
    case string.string.string => exact utf8Compare_lawful.trans _ _ _ hab hbc
    case cell.cell.cell => exact utf8Compare_lawful.trans _ _ _ hab hbc

end CollectionKeyIdentity

namespace CollectionIndex

open OrderedEntries Utf8

variable {Link : Type}

/-- The order of the occurrences. -/
abbrev Precedes (a b : JsString) : Prop := utf8Compare a b < 0

instance : Std.Irrefl Precedes := utf8Compare_lawful.irrefl

instance : IsTrans JsString Precedes := utf8Compare_lawful.isTrans

instance : Std.Trichotomous Precedes := utf8Compare_lawful.trichotomous

/-- What a bucket publishes for its entries. -/
def publishedOf (mode : IndexMode) (entries : List (JsString × Link)) :
    Option (PublishedBucket Link) :=
  entries.head?.map fun first => match mode with
    | .key => .single first.2
    | .group => .group (entries.map (·.2))

/-- The entries after a change of an occurrence: with its element, or without it. -/
def changed (occurrence : JsString) (element : Option Link) (entries : List (JsString × Link)) :
    List (JsString × Link) :=
  match element with
  | some element => put Precedes occurrence element entries
  | none => remove occurrence entries

theorem ordered_changed {entries : List (JsString × Link)} (h : Ordered Precedes entries)
    (occurrence : JsString) (element : Option Link) :
    Ordered Precedes (changed occurrence element entries) := by
  cases element with
  | some element => exact h.put occurrence element
  | none => exact h.remove occurrence

theorem mem_changed {entries : List (JsString × Link)} {occurrence : JsString}
    {element : Option Link} {x : JsString × Link} :
    x ∈ changed occurrence element entries ↔
      (x.1 = occurrence ∧ element = some x.2) ∨ x ∈ entries ∧ x.1 ≠ occurrence := by
  cases element with
  | some element =>
    rw [changed, mem_put]
    constructor
    · rintro (rfl | h)
      · exact .inl ⟨rfl, rfl⟩
      · exact .inr h
    · rintro (⟨rfl, h⟩ | h)
      · exact .inl (by rw [Option.some.inj h])
      · exact .inr h
  | none => simp [changed, mem_remove]

section

variable (hashStringOf : JsString → JsString) (Occurs : JsString → Prop)

/-- The record of an entry among the members of its bucket. -/
def memberEntry (x : JsString × Link) : JsString × IndexMember Link := (hashStringOf x.1, ⟨x.1, x.2⟩)

/-- A record of members holds those of some entries. -/
def Holds (members : JsMap JsString (IndexMember Link)) (entries : List (JsString × Link)) : Prop :=
  ∀ e, e ∈ members.entries ↔ ∃ x ∈ entries, e = memberEntry hashStringOf x

/-- A bucket stands for some entries. A cache may be missing, but is never wrong. -/
structure Shows (mode : IndexMode) (entries : List (JsString × Link)) (s : CollectionIndex Link)
    (bucket : JsString) : Prop where
  ordered : Ordered Precedes entries
  occurs : ∀ x ∈ entries, Occurs x.1
  members : Holds hashStringOf (s.membersOf bucket) entries
  buckets : s.buckets.get bucket = publishedOf mode entries
  winner : mode = .key → ∀ winner, (s.winners.getD .empty).get bucket = some winner →
    entries.head?.map (fun x => hashStringOf x.1) = some winner
  order : mode = .group → ∀ order, (s.orders.getD .empty).get bucket = some order →
    order = entries.map (·.1)

end

/-- All but the slots of one bucket is as it was. -/
structure Spares (s s' : CollectionIndex Link) (bucket : JsString) : Prop where
  members : ∀ other ≠ bucket, s'.membersOf other = s.membersOf other
  buckets : ∀ other ≠ bucket, s'.buckets.get other = s.buckets.get other
  winner : ∀ other ≠ bucket,
    (s'.winners.getD .empty).get other = (s.winners.getD .empty).get other
  order : ∀ other ≠ bucket, (s'.orders.getD .empty).get other = (s.orders.getD .empty).get other
  occupied : ∀ other ≠ bucket, s'.occupied.get other = s.occupied.get other
  assignments : s'.assignments = s.assignments

theorem mem_entries_set {κ ν : Type} [DecidableEq κ] {m : JsMap κ ν} {k : κ} {v : ν} {e : κ × ν} :
    e ∈ (m.set k v).entries ↔ e = (k, v) ∨ e ∈ m.entries ∧ e.1 ≠ k := by
  obtain ⟨k', v'⟩ := e
  rw [← JsMap.get_eq_some_iff, ← JsMap.get_eq_some_iff, JsMap.get_set, Prod.mk.injEq]
  split
  · rename_i heq
    simp [heq.symm, eq_comm]
  · rename_i hne
    simp [Ne.symm hne]

theorem mem_entries_delete {κ ν : Type} [DecidableEq κ] {m : JsMap κ ν} {k : κ} {e : κ × ν} :
    e ∈ (m.delete k).entries ↔ e ∈ m.entries ∧ e.1 ≠ k := by
  simp [JsMap.delete, List.mem_filter]

theorem membersOf_setMember (s : CollectionIndex Link) (bucket memberId : JsString)
    (member : IndexMember Link) (other : JsString) :
    (s.setMember bucket memberId member).membersOf other =
      if bucket = other then (s.membersOf bucket).set memberId member else s.membersOf other := by
  rw [membersOf, setMember, JsMap.get_set]
  split <;> rfl

theorem membersOf_deleteMember (s : CollectionIndex Link) (bucket memberId other : JsString) :
    (s.deleteMember bucket memberId).membersOf other =
      if bucket = other then (s.membersOf bucket).delete memberId else s.membersOf other := by
  by_cases heq : bucket = other
  · subst heq
    cases hget : s.members.get bucket with
    | none => simp [deleteMember, membersOf, hget, JsMap.delete, JsMap.empty]
    | some members => simp [deleteMember, membersOf, hget]
  · rw [if_neg heq]
    cases hget : s.members.get bucket with
    | none => simp [deleteMember, hget]
    | some members => simp [deleteMember, membersOf, hget, JsMap.get_set_other _ heq]

section FirstMember

variable {winner : Option (JsString × IndexMember Link)}
  {list : List (JsString × IndexMember Link)}

variable (winner list) in
theorem firstMember_isSome :
    (firstMember winner list).isSome = (winner.isSome || !list.isEmpty) := by
  induction list generalizing winner with
  | nil => simp [firstMember]
  | cons entry list ih =>
    cases winner with
    | none => simp [firstMember, ih]
    | some winner =>
      rw [firstMember, ih]
      split <;> simp

theorem firstMember_mem {found : JsString × IndexMember Link}
    (h : firstMember winner list = some found) : winner = some found ∨ found ∈ list := by
  induction list generalizing winner with
  | nil => exact .inl h
  | cons entry list ih =>
    cases winner with
    | none =>
      rcases ih h with h | h
      · exact .inr (by simp [Option.some.inj h])
      · exact .inr (List.mem_cons_of_mem _ h)
    | some winner =>
      rw [firstMember] at h
      rcases ih h with h | h
      · split at h
        · exact .inr (by simp [Option.some.inj h])
        · exact .inl h
      · exact .inr (List.mem_cons_of_mem _ h)

theorem firstMember_least {found : JsString × IndexMember Link}
    (h : firstMember winner list = some found) :
    ∀ e, winner = some e ∨ e ∈ list → ¬Precedes e.2.occurrence found.2.occurrence := by
  induction list generalizing winner with
  | nil =>
    rintro e (he | he)
    · rw [← Option.some.inj (he.symm.trans h)]
      exact irrefl_of Precedes _
    · cases he
  | cons entry list ih =>
    cases winner with
    | none =>
      rintro e (he | he)
      · cases he
      · rcases List.mem_cons.1 he with rfl | he
        · exact ih h e (.inl rfl)
        · exact ih h e (.inr he)
    | some winner =>
      rw [firstMember] at h
      have hkept : ¬Precedes winner.2.occurrence found.2.occurrence ∧
          ¬Precedes entry.2.occurrence found.2.occurrence := by
        split at h
        · rename_i hlt
          have hentry := ih h entry (.inl rfl)
          exact ⟨fun hwin => hentry (trans_of Precedes hlt hwin), hentry⟩
        · rename_i hlt
          have hwinner := ih h winner (.inl rfl)
          refine ⟨hwinner, fun hentry => ?_⟩
          rcases trichotomous_of Precedes winner.2.occurrence entry.2.occurrence with h' | h' | h'
          · exact hwinner (trans_of Precedes h' hentry)
          · exact hwinner (h' ▸ hentry)
          · exact hlt h'
      rintro e (he | he)
      · rw [← Option.some.inj he]
        exact hkept.1
      · rcases List.mem_cons.1 he with rfl | he
        · exact hkept.2
        · exact ih h e (.inr he)

end FirstMember

variable {hashStringOf : JsString → JsString} {Occurs : JsString → Prop} {mode : IndexMode}
  {entries : List (JsString × Link)} {s : CollectionIndex Link} {bucket : JsString}

/-- The winner found among the members is the least occurrence. -/
theorem firstMemberId_eq (hordered : Ordered Precedes entries)
    (h : Holds hashStringOf (s.membersOf bucket) entries) :
    s.firstMemberId bucket = entries.head?.map fun x => hashStringOf x.1 := by
  rw [firstMemberId]
  cases hfound : firstMember none (s.membersOf bucket).entries with
  | none =>
    have hempty : (s.membersOf bucket).entries = [] := by
      simpa [hfound] using firstMember_isSome none (s.membersOf bucket).entries
    cases entries with
    | nil => rfl
    | cons x entries =>
      have := (h _).2 ⟨x, List.mem_cons_self, rfl⟩
      simp [hempty] at this
  | some found =>
    obtain ⟨x, hx, rfl⟩ := (h _).1 ((firstMember_mem hfound).resolve_left (by simp))
    have hleast := firstMember_least hfound
    have hhead : entries.head? = some x := hordered.head?_eq_iff.2 ⟨hx, fun y hy hne => ?_⟩
    · rw [hhead]
      rfl
    · have hnot := hleast _ (.inr ((h _).2 ⟨y, hy, rfl⟩))
      rcases trichotomous_of Precedes x.1 y.1 with h' | h' | h'
      · exact h'
      · exact absurd (hordered.inj hy hx h'.symm) hne
      · exact absurd h' hnot

theorem Shows.holds_set (h : Shows hashStringOf Occurs mode entries s bucket)
    (hinj : ∀ a b, Occurs a → Occurs b → hashStringOf a = hashStringOf b → a = b)
    {occurrence : JsString} (hocc : Occurs occurrence) (element : Link) :
    Holds hashStringOf ((s.membersOf bucket).set (hashStringOf occurrence) ⟨occurrence, element⟩)
      (changed occurrence (some element) entries) := by
  intro e
  rw [mem_entries_set, h.members e]
  constructor
  · rintro (rfl | ⟨⟨x, hx, rfl⟩, hne⟩)
    · exact ⟨(occurrence, element), mem_changed.2 (.inl ⟨rfl, rfl⟩), rfl⟩
    · exact ⟨x, mem_changed.2 (.inr ⟨hx, fun heq => hne (heq ▸ rfl)⟩), rfl⟩
  · rintro ⟨x, hx, rfl⟩
    rcases mem_changed.1 hx with ⟨rfl, heq⟩ | ⟨hx, hne⟩
    · exact .inl (by rw [Option.some.inj heq, memberEntry])
    · exact .inr ⟨⟨x, hx, rfl⟩, fun heq => hne (hinj _ _ (h.occurs x hx) hocc heq)⟩

theorem Shows.holds_delete (h : Shows hashStringOf Occurs mode entries s bucket)
    (hinj : ∀ a b, Occurs a → Occurs b → hashStringOf a = hashStringOf b → a = b)
    {occurrence : JsString} (hocc : Occurs occurrence) :
    Holds hashStringOf ((s.membersOf bucket).delete (hashStringOf occurrence))
      (changed occurrence none entries) := by
  intro e
  rw [mem_entries_delete, h.members e]
  constructor
  · rintro ⟨⟨x, hx, rfl⟩, hne⟩
    exact ⟨x, mem_changed.2 (.inr ⟨hx, fun heq => hne (heq ▸ rfl)⟩), rfl⟩
  · rintro ⟨x, hx, rfl⟩
    rcases mem_changed.1 hx with ⟨_, heq⟩ | ⟨hx, hne⟩
    · cases heq
    · exact ⟨⟨x, hx, rfl⟩, fun heq => hne (hinj _ _ (h.occurs x hx) hocc heq)⟩

end CollectionIndex
