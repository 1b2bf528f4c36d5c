import Mathlib.Data.List.Sort

/-!
# Ordered entries

A list of entries in the strict order of their keys is determined by its members. An entry is
put into such a list where the order splits it, in place of one with its key.
-/

namespace OrderedEntries

variable {κ ν : Type*} {r : κ → κ → Prop}

/-- The keys stand in strict order. -/
def Ordered (r : κ → κ → Prop) (entries : List (κ × ν)) : Prop :=
  entries.Pairwise fun x y => r x.1 y.1

def put (r : κ → κ → Prop) [DecidableRel r] (k : κ) (v : ν) (entries : List (κ × ν)) :
    List (κ × ν) :=
  entries.filter (fun x => r x.1 k) ++ (k, v) :: entries.filter fun x => r k x.1

def remove [DecidableEq κ] (k : κ) (entries : List (κ × ν)) : List (κ × ν) :=
  entries.filter fun x => x.1 ≠ k

variable {entries : List (κ × ν)}

theorem mem_remove [DecidableEq κ] {k : κ} {x : κ × ν} :
    x ∈ remove k entries ↔ x ∈ entries ∧ x.1 ≠ k := by
  simp [remove]

theorem Ordered.remove [DecidableEq κ] (h : Ordered r entries) (k : κ) :
    Ordered r (remove k entries) := List.Pairwise.filter _ h

theorem ne_of_before [Std.Irrefl r] {a b : κ} (h : r a b) : a ≠ b := by
  rintro rfl
  exact irrefl_of r a h

theorem Ordered.put [IsTrans κ r] [DecidableRel r] (h : Ordered r entries) (k : κ) (v : ν) :
    Ordered r (put r k v entries) := by
  refine List.pairwise_append.2 ⟨h.filter _, List.pairwise_cons.2 ⟨?_, h.filter _⟩, ?_⟩
  · intro y hy
    simpa using (List.mem_filter.1 hy).2
  · intro x hx y hy
    have hxk : r x.1 k := by simpa using (List.mem_filter.1 hx).2
    rcases List.mem_cons.1 hy with rfl | hy
    · exact hxk
    · have hky : r k y.1 := by simpa using (List.mem_filter.1 hy).2
      exact trans_of r hxk hky

/-- Where all entries before a place are before a key, and none from there on is. -/
theorem take_eq_filter [DecidableRel r] {k : κ} {i : ℕ} (hbefore : ∀ x ∈ entries.take i, r x.1 k)
    (hnot : ∀ x ∈ entries.drop i, ¬r x.1 k) : entries.take i = entries.filter fun x => r x.1 k := by
  conv_rhs => rw [← List.take_append_drop i entries]
  rw [List.filter_append, List.filter_eq_self.2 (by simpa using hbefore),
    List.filter_eq_nil_iff.2 (by simpa using hnot), List.append_nil]

/-- Two entries of one key are one entry. -/
theorem Ordered.inj [Std.Irrefl r] (h : Ordered r entries) {x y : κ × ν} (hx : x ∈ entries)
    (hy : y ∈ entries) (hxy : x.1 = y.1) : x = y := by
  induction entries with
  | nil => cases hx
  | cons z entries ih =>
    obtain ⟨hz, hrest⟩ := List.pairwise_cons.1 h
    rcases List.mem_cons.1 hx with hxz | hx
    · rcases List.mem_cons.1 hy with hyz | hy
      · exact hxz.trans hyz.symm
      · exact absurd (hxz ▸ hxy) (ne_of_before (hz y hy))
    · rcases List.mem_cons.1 hy with hyz | hy
      · exact absurd (hyz ▸ hxy.symm) (ne_of_before (hz x hx))
      · exact ih hrest hx hy

theorem ne_iff_before [Std.Irrefl r] [Std.Trichotomous r] {a b : κ} : a ≠ b ↔ r a b ∨ r b a := by
  constructor
  · intro hne
    rcases trichotomous_of r a b with h | h | h
    · exact .inl h
    · exact absurd h hne
    · exact .inr h
  · rintro (h | h)
    · exact ne_of_before h
    · exact (ne_of_before h).symm

theorem mem_put [Std.Irrefl r] [Std.Trichotomous r] [DecidableRel r] {k : κ} {v : ν} {x : κ × ν} :
    x ∈ put r k v entries ↔ x = (k, v) ∨ x ∈ entries ∧ x.1 ≠ k := by
  simp only [put, List.mem_append, List.mem_cons, List.mem_filter, decide_eq_true_eq]
  rw [ne_iff_before (r := r)]
  tauto

variable [Std.Irrefl r] [IsTrans κ r]

theorem not_symm {a b : κ} (hab : r a b) : ¬r b a := fun hba => irrefl_of r a (trans_of r hab hba)

theorem eq_of_mem_iff {xs ys : List (κ × ν)} (hx : Ordered r xs) (hy : Ordered r ys)
    (h : ∀ x, x ∈ xs ↔ x ∈ ys) : xs = ys := by
  have : Std.Irrefl fun x y : κ × ν => r x.1 y.1 := ⟨fun x => irrefl_of r x.1⟩
  have : Std.Antisymm fun x y : κ × ν => r x.1 y.1 := ⟨fun _ _ hxy hyx => absurd hyx (not_symm hxy)⟩
  exact List.Pairwise.eq_of_mem_iff hx hy h

/-- The first entry is the one before all others. -/
theorem Ordered.head?_eq_iff (h : Ordered r entries) {x : κ × ν} :
    entries.head? = some x ↔ x ∈ entries ∧ ∀ y ∈ entries, y ≠ x → r x.1 y.1 := by
  cases entries with
  | nil => simp
  | cons z entries =>
    obtain ⟨hz, _⟩ := List.pairwise_cons.1 h
    constructor
    · rintro ⟨⟩
      refine ⟨List.mem_cons_self, fun y hy hne => ?_⟩
      rcases List.mem_cons.1 hy with rfl | hy
      · exact absurd rfl hne
      · exact hz y hy
    · rintro ⟨hmem, hleast⟩
      rcases List.mem_cons.1 hmem with rfl | hmem
      · rfl
      · have hzx := hz x hmem
        have hxz := hleast z List.mem_cons_self fun heq => ne_of_before hzx (congrArg Prod.fst heq)
        exact absurd hxz (not_symm hzx)

section

variable [Std.Trichotomous r] [DecidableRel r]

/-- Of entries none of which is before a key, those after it come behind the one of the key. -/
theorem Ordered.drop_present [DecidableEq κ] (h : Ordered r entries) {k : κ}
    (hnot : ∀ x ∈ entries, ¬r x.1 k) :
    entries.drop (decide ((entries.map (·.1))[0]? = some k)).toNat =
      entries.filter fun x => r k x.1 := by
  cases entries with
  | nil => simp
  | cons z entries =>
    obtain ⟨hz, _⟩ := List.pairwise_cons.1 h
    by_cases hk : z.1 = k
    · subst hk
      have hall : entries.filter (fun x => r z.1 x.1) = entries :=
        List.filter_eq_self.2 fun x hx => by simpa using hz x hx
      simp [hall, irrefl_of r z.1]
    · have hkz : r k z.1 := by
        rcases trichotomous_of r k z.1 with h | h | h
        · exact h
        · exact absurd h.symm hk
        · exact absurd h (hnot z List.mem_cons_self)
      have hall : entries.filter (fun x => r k x.1) = entries :=
        List.filter_eq_self.2 fun x hx => by simpa using trans_of r hkz (hz x hx)
      simp [hk, hkz, hall]

omit [Std.Irrefl r] [Std.Trichotomous r] in
theorem Ordered.head?_put (h : Ordered r entries) (k : κ) (v : ν) :
    (OrderedEntries.put r k v entries).head? = match entries.head? with
      | some x => if r x.1 k then some x else some (k, v)
      | none => some (k, v) := by
  cases entries with
  | nil => rfl
  | cons z entries =>
    obtain ⟨hz, _⟩ := List.pairwise_cons.1 h
    by_cases hk : r z.1 k
    · simp [OrderedEntries.put, hk]
    · have hnone : entries.filter (fun x => r x.1 k) = [] :=
        List.filter_eq_nil_iff.2 fun x hx => by simpa using fun hxk => hk (trans_of r (hz x hx) hxk)
      simp [OrderedEntries.put, hk, hnone]

section Split

variable [DecidableEq κ] {k : κ} {i : ℕ}
  (h : Ordered r entries) (hbefore : ∀ x ∈ entries.take i, r x.1 k)
  (hnot : ∀ x ∈ entries.drop i, ¬r x.1 k)

include h hbefore hnot in
theorem drop_eq_filter :
    entries.drop (i + (decide ((entries.map (·.1))[i]? = some k)).toNat) =
      entries.filter fun x => r k x.1 := by
  have hdrop := Ordered.drop_present (List.Pairwise.drop h) hnot
  rw [List.drop_drop, List.map_drop, List.getElem?_drop, Nat.add_zero] at hdrop
  rw [hdrop]
  conv_rhs => rw [← List.take_append_drop i entries]
  have hnil : (entries.take i).filter (fun x => r k x.1) = [] :=
    List.filter_eq_nil_iff.2 fun x hx => by simpa using not_symm (hbefore x hx)
  rw [List.filter_append, hnil, List.nil_append]

include h hbefore hnot in
/-- Putting is a splice where a search for the key ends. -/
theorem put_eq_splice (v : ν) :
    put r k v entries = entries.take i ++ (k, v) ::
      entries.drop (i + (decide ((entries.map (·.1))[i]? = some k)).toNat) := by
  rw [put, take_eq_filter hbefore hnot, drop_eq_filter h hbefore hnot]

include h hbefore hnot in
theorem remove_eq_splice :
    remove k entries = entries.take i ++
      entries.drop (i + (decide ((entries.map (·.1))[i]? = some k)).toNat) := by
  rw [take_eq_filter hbefore hnot, drop_eq_filter h hbefore hnot]
  apply eq_of_mem_iff (r := r) (h.remove k)
  · refine List.pairwise_append.2 ⟨h.filter _, h.filter _, fun x hx y hy => ?_⟩
    have hxk : r x.1 k := by simpa using (List.mem_filter.1 hx).2
    have hky : r k y.1 := by simpa using (List.mem_filter.1 hy).2
    exact trans_of r hxk hky
  · intro x
    simp only [mem_remove, List.mem_append, List.mem_filter, decide_eq_true_eq]
    rw [ne_iff_before (r := r)]
    tauto

end Split

end

/-- A comparison whose sign is a strict order in which only equals are not apart. -/
structure LawfulCompare {α : Type*} (compare : α → α → ℤ) : Prop where
  eq : ∀ a b, compare a b = 0 → a = b
  swap : ∀ a b, compare a b < 0 ↔ 0 < compare b a
  trans : ∀ a b c, compare a b < 0 → compare b c < 0 → compare a c < 0

namespace LawfulCompare

variable {α : Type*} {compare : α → α → ℤ} (h : LawfulCompare compare)
include h

theorem self (a : α) : compare a a = 0 := by
  have := h.swap a a
  omega

theorem irrefl : Std.Irrefl fun a b => compare a b < 0 := ⟨fun a => by simp [h.self a]⟩

theorem isTrans : IsTrans α fun a b => compare a b < 0 := ⟨h.trans⟩

theorem trichotomous : Std.Trichotomous fun a b => compare a b < 0 := by
  refine ⟨fun a b hab hba => h.eq a b ?_⟩
  have := h.swap b a
  omega

theorem le_trans (a b c : α) (hab : compare a b ≤ 0) (hbc : compare b c ≤ 0) :
    compare a c ≤ 0 := by
  rcases Int.lt_or_eq_of_le hab with hab | hab
  · rcases Int.lt_or_eq_of_le hbc with hbc | hbc
    · exact Int.le_of_lt (h.trans a b c hab hbc)
    · rw [← h.eq b c hbc]
      exact Int.le_of_lt hab
  · rw [h.eq a b hab]
    exact hbc

theorem le_total (a b : α) : compare a b ≤ 0 ∨ compare b a ≤ 0 := by
  have := h.swap b a
  omega

end LawfulCompare

end OrderedEntries
