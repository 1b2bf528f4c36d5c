import Mathlib.Data.List.Nodup
import Mathlib.Data.List.Perm.Subperm

/-!
# Sets that keep the order of insertion

A set is the list of its members, each once. Most readers of a set ask what is in it, or
how many of its members satisfy a test, and neither depends on the order.
-/

structure JsSet (α : Type) where
  items : List α
  nodup : items.Nodup

namespace JsSet

variable {α : Type}

instance : Membership α (JsSet α) := ⟨fun s a => a ∈ s.items⟩

def empty : JsSet α := ⟨[], List.nodup_nil⟩

instance : Inhabited (JsSet α) := ⟨empty⟩

/-- How many members satisfy a test. -/
def count (s : JsSet α) (p : α → Bool) : Nat := s.items.countP p

def size (s : JsSet α) : Nat := s.items.length

variable {s : JsSet α} {a : α}

theorem mem_items : a ∈ s.items ↔ a ∈ s := Iff.rfl

@[simp] theorem not_mem_empty (a : α) : a ∉ (empty : JsSet α) := List.not_mem_nil

/-- Two sets with the same members count the same. -/
theorem count_congr {t : JsSet α} {p q : α → Bool} (hmem : ∀ a, a ∈ s ↔ a ∈ t)
    (hp : ∀ a ∈ s, p a = q a) : s.count p = t.count q := by
  have hperm : s.items.Perm t.items := (List.perm_ext_iff_of_nodup s.nodup t.nodup).2 hmem
  calc s.items.countP p = s.items.countP q := List.countP_congr fun a ha => by rw [hp a ha]
    _ = t.items.countP q := hperm.countP_eq q

theorem count_pos {p : α → Bool} : 0 < s.count p ↔ ∃ a ∈ s, p a = true :=
  List.countP_pos_iff

variable [DecidableEq α]

instance (s : JsSet α) (a : α) : Decidable (a ∈ s) := inferInstanceAs (Decidable (a ∈ s.items))

def has (s : JsSet α) (a : α) : Bool := decide (a ∈ s)

def add (s : JsSet α) (a : α) : JsSet α :=
  if h : a ∈ s then s
  else ⟨s.items ++ [a], List.nodup_append.2
    ⟨s.nodup, List.nodup_singleton a, fun x hx y hy => by
      obtain rfl := List.mem_singleton.1 hy
      exact fun e => h (e ▸ hx)⟩⟩

def delete (s : JsSet α) (a : α) : JsSet α := ⟨s.items.filter (· ≠ a), s.nodup.filter _⟩

def addAll (s : JsSet α) (as : List α) : JsSet α := as.foldl add s

@[simp] theorem has_iff : s.has a = true ↔ a ∈ s := decide_eq_true_iff

@[simp] theorem mem_add {b : α} : b ∈ s.add a ↔ b = a ∨ b ∈ s := by
  rw [add]
  split
  case isTrue h =>
    constructor
    · exact .inr
    · rintro (rfl | hb)
      · exact h
      · exact hb
  case isFalse h =>
    have h' : b ∈ s.items ++ [a] ↔ b = a ∨ b ∈ s.items := by simp [or_comm]
    exact h'

@[simp] theorem mem_delete {b : α} : b ∈ s.delete a ↔ b ≠ a ∧ b ∈ s := by
  have h : b ∈ s.items.filter (· ≠ a) ↔ b ≠ a ∧ b ∈ s.items := by simp [and_comm]
  exact h

theorem has_add_of_ne {b : α} (h : b ≠ a) : (s.add a).has b = s.has b := by
  rw [Bool.eq_iff_iff]
  simp [h]

theorem has_delete_of_ne {b : α} (h : b ≠ a) :
    (s.delete a).has b = s.has b := by
  rw [Bool.eq_iff_iff]
  simp [h]

theorem add_of_mem (h : a ∈ s) : s.add a = s := dif_pos h

theorem delete_of_not_mem (h : a ∉ s) : s.delete a = s := by
  have hitems : s.items.filter (· ≠ a) = s.items := by
    refine List.filter_eq_self.2 fun b hb => ?_
    simpa using fun e : b = a => h (e ▸ hb)
  obtain ⟨items, nodup⟩ := s
  simp only [delete, hitems]

@[simp] theorem mem_addAll {as : List α} {b : α} :
    b ∈ s.addAll as ↔ b ∈ as ∨ b ∈ s := by
  induction as generalizing s with
  | nil => simp [addAll]
  | cons a as ih =>
    have h : s.addAll (a :: as) = (s.add a).addAll as := rfl
    rw [h, ih]
    simp only [mem_add, List.mem_cons]
    tauto

theorem count_add_of_not_mem (h : a ∉ s) (p : α → Bool) :
    (s.add a).count p = s.count p + if p a then 1 else 0 := by
  rw [add, dif_neg h, count, count, List.countP_append, List.countP_singleton]

theorem count_delete_of_mem (h : a ∈ s) (p : α → Bool) :
    s.count p = (s.delete a).count p + if p a then 1 else 0 := by
  have hmem : ∀ b, b ∈ s ↔ b ∈ (s.delete a).add a := by
    intro b
    rw [mem_add, mem_delete]
    by_cases hb : b = a
    · subst hb
      simp [h]
    · simp [hb]
  rw [count_congr hmem fun b _ => rfl, count_add_of_not_mem fun hd => (mem_delete.1 hd).1 rfl]

/-- One member more satisfies the second test than the first. -/
theorem count_succ {p q : α → Bool} (ha : a ∈ s) (hp : p a = false)
    (hq : q a = true) (hother : ∀ b ∈ s, b ≠ a → p b = q b) : s.count q = s.count p + 1 := by
  have hsame : (s.delete a).count q = (s.delete a).count p :=
    count_congr (fun b => Iff.rfl) fun b hb =>
      (hother b (mem_delete.1 hb).2 (mem_delete.1 hb).1).symm
  rw [count_delete_of_mem ha q, count_delete_of_mem ha p, hsame, hp, hq]
  rfl

/-- The members of one set that are in another are as many as the other way about. -/
theorem count_mem_comm (s t : JsSet α) :
    s.count (fun a => decide (a ∈ t)) = t.count (fun a => decide (a ∈ s)) := by
  rw [count, count, List.countP_eq_length_filter, List.countP_eq_length_filter]
  refine List.Perm.length_eq ((List.perm_ext_iff_of_nodup (s.nodup.filter _)
    (t.nodup.filter _)).2 fun a => ?_)
  simp only [List.mem_filter, decide_eq_true_eq, mem_items]
  exact and_comm

end JsSet
