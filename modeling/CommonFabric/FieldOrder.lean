import CommonFabric.JsValue
import Mathlib.Algebra.BigOperators.Group.List.Basic
import Mathlib.Data.List.Sort

/-!
# Records in key order

A record lists its members by key in code unit order. What its keys hold determines such a
record, and a sum over its members can be taken key by key.
-/

namespace JsString

theorem ltUnits_irrefl (s : List UInt16) : ltUnits s s = false := by
  induction s with
  | nil => rfl
  | cons u s ih => simp [ltUnits, ih]

theorem ltUnits_trans {a b c : List UInt16} (hab : ltUnits a b = true) (hbc : ltUnits b c = true) :
    ltUnits a c = true := by
  induction a generalizing b c with
  | nil =>
    cases c with
    | nil => cases b <;> simp [ltUnits] at hbc
    | cons z c => rfl
  | cons x a ih =>
    cases b with
    | nil => simp [ltUnits] at hab
    | cons y b =>
      cases c with
      | nil => simp [ltUnits] at hbc
      | cons z c =>
        simp only [ltUnits, Bool.or_eq_true, decide_eq_true_eq, Bool.and_eq_true] at hab hbc ⊢
        rcases hab with hxy | ⟨rfl, hab⟩
        · rcases hbc with hyz | ⟨rfl, -⟩
          · exact .inl (UInt16.lt_trans hxy hyz)
          · exact .inl hxy
        · rcases hbc with hyz | ⟨rfl, hbc⟩
          · exact .inl hyz
          · exact .inr ⟨rfl, ih hab hbc⟩

theorem ltUnits_total {a b : List UInt16} (hne : a ≠ b) (h : ltUnits a b = false) :
    ltUnits b a = true := by
  induction a generalizing b with
  | nil =>
    cases b with
    | nil => exact absurd rfl hne
    | cons y b => simp [ltUnits] at h
  | cons x a ih =>
    cases b with
    | nil => rfl
    | cons y b =>
      simp only [ltUnits, Bool.or_eq_false_iff, decide_eq_false_iff_not, Bool.and_eq_false_imp,
        decide_eq_true_eq] at h
      simp only [ltUnits, Bool.or_eq_true, decide_eq_true_eq, Bool.and_eq_true]
      by_cases hxy : x = y
      · subst hxy
        exact .inr ⟨rfl, ih (fun heq => hne (heq ▸ rfl)) (h.2 rfl)⟩
      · exact .inl (UInt16.lt_of_le_of_ne (UInt16.not_lt.1 h.1) fun heq => hxy heq.symm)

theorem lt_irrefl (s : JsString) : s.lt s = false := ltUnits_irrefl s.units

theorem lt_trans {a b c : JsString} (hab : a.lt b = true) (hbc : b.lt c = true) : a.lt c = true :=
  ltUnits_trans hab hbc

theorem lt_total {a b : JsString} (hne : a ≠ b) (h : a.lt b = false) : b.lt a = true :=
  ltUnits_total (fun heq => hne (by cases a; cases b; exact congrArg JsString.mk heq)) h

theorem ne_of_lt {a b : JsString} (h : a.lt b = true) : a ≠ b := by
  rintro rfl
  simp [lt_irrefl] at h

theorem lt_asymm {a b : JsString} (h : a.lt b = true) : ¬b.lt a = true := fun h' => by
  have := lt_trans h h'
  simp [lt_irrefl] at this

instance : Std.Irrefl fun a b : JsString => a.lt b = true := ⟨fun _ h => ne_of_lt h rfl⟩

instance : Std.Antisymm fun a b : JsString => a.lt b = true :=
  ⟨fun _ _ h h' => absurd h' (lt_asymm h)⟩

end JsString

abbrev Members := List (JsString × FabricValue)

namespace Fields

instance : Std.Irrefl fun a b : JsString × FabricValue => a.1.lt b.1 = true :=
  ⟨fun _ h => JsString.ne_of_lt h rfl⟩

instance : Std.Antisymm fun a b : JsString × FabricValue => a.1.lt b.1 = true :=
  ⟨fun _ _ h h' => absurd h' (JsString.lt_asymm h)⟩

/-- The keys ascend. -/
def Ordered (fields : List (JsString × FabricValue)) : Prop :=
  fields.Pairwise fun a b => a.1.lt b.1 = true

instance (fields : List (JsString × FabricValue)) : Decidable (Ordered fields) :=
  inferInstanceAs (Decidable (List.Pairwise _ _))

variable {fields : List (JsString × FabricValue)}

theorem Ordered.keys (h : Ordered fields) :
    (fields.map (·.1)).Pairwise fun a b => a.lt b = true := by
  rw [List.pairwise_map]
  exact h

theorem Ordered.nodup (h : Ordered fields) :
    (fields.map (·.1)).Nodup :=
  h.keys.imp JsString.ne_of_lt

theorem erase_cons (k : JsString) (x : FabricValue) (rest : List (JsString × FabricValue))
    (key : JsString) :
    erase ((k, x) :: rest) key = if k = key then erase rest key else (k, x) :: erase rest key := by
  by_cases hk : k = key <;> simp [erase, hk]

theorem mem_set {key : JsString} {v : FabricValue}
    {x : JsString × FabricValue} (h : x ∈ set fields key v) : x = (key, v) ∨ x ∈ fields := by
  induction fields with
  | nil => exact .inl (List.mem_singleton.1 h)
  | cons field rest ih =>
    obtain ⟨k, y⟩ := field
    rw [set] at h
    split at h
    · rcases List.mem_cons.1 h with h | h
      · exact .inl h
      · exact .inr (List.mem_cons_of_mem _ h)
    split at h
    · rcases List.mem_cons.1 h with h | h
      · exact .inl h
      · exact .inr h
    · rcases List.mem_cons.1 h with h | h
      · exact .inr (h ▸ List.mem_cons_self)
      · exact (ih h).imp_right (List.mem_cons_of_mem _)

theorem Ordered.set (h : Ordered fields) (key : JsString)
    (v : FabricValue) : Ordered (Fields.set fields key v) := by
  induction fields with
  | nil => exact List.pairwise_singleton _ _
  | cons field rest ih =>
    obtain ⟨k, y⟩ := field
    obtain ⟨hhead, hrest⟩ := List.pairwise_cons.1 h
    rw [Fields.set]
    by_cases hk : k = key
    · subst hk
      rw [if_pos rfl]
      exact List.pairwise_cons.2 ⟨hhead, hrest⟩
    rw [if_neg hk]
    by_cases hlt : key.lt k = true
    · rw [if_pos hlt]
      refine List.pairwise_cons.2 ⟨fun x hx => ?_, h⟩
      rcases List.mem_cons.1 hx with rfl | hx
      · exact hlt
      · exact JsString.lt_trans hlt (hhead x hx)
    · rw [if_neg hlt]
      have hklt : k.lt key = true := JsString.lt_total (Ne.symm hk) (by simpa using hlt)
      refine List.pairwise_cons.2 ⟨fun x hx => ?_, ih hrest⟩
      rcases mem_set hx with rfl | hx
      · exact hklt
      · exact hhead x hx

theorem get?_eq_none_iff {key : JsString} :
    get? fields key = none ↔ key ∉ fields.map (·.1) := by
  simp only [get?, Option.map_eq_none_iff, List.find?_eq_none, decide_eq_true_eq, List.mem_map,
    not_exists, not_and]

theorem get?_eq_some_of_mem (h : Ordered fields)
    {x : JsString × FabricValue} (hx : x ∈ fields) : get? fields x.1 = some x.2 := by
  induction fields with
  | nil => simp at hx
  | cons field rest ih =>
    obtain ⟨k, y⟩ := field
    obtain ⟨hhead, hrest⟩ := List.pairwise_cons.1 h
    rw [get?_cons]
    rcases List.mem_cons.1 hx with rfl | hx
    · simp
    · rw [if_neg (JsString.ne_of_lt (hhead x hx)), ih hrest hx]

theorem mem_of_get? {key : JsString} {v : FabricValue}
    (h : get? fields key = some v) : (key, v) ∈ fields := by
  simp only [get?, Option.map_eq_some_iff] at h
  obtain ⟨x, hfind, rfl⟩ := h
  have hkey := List.find?_some hfind
  have hmem := List.mem_of_find?_eq_some hfind
  obtain ⟨k, y⟩ := x
  obtain rfl : k = key := by simpa using hkey
  exact hmem

/-- What its keys hold determines a record. -/
theorem Ordered.ext {a b : List (JsString × FabricValue)} (ha : Ordered a) (hb : Ordered b)
    (h : ∀ key, get? a key = get? b key) : a = b := by
  have ha' : a.Pairwise fun x y => x.1.lt y.1 = true := ha
  have hb' : b.Pairwise fun x y => x.1.lt y.1 = true := hb
  refine ha'.eq_of_mem_iff hb' fun x => ?_
  constructor
  · intro hx
    have hget := get?_eq_some_of_mem ha hx
    rw [h] at hget
    exact mem_of_get? hget
  · intro hx
    have hget := get?_eq_some_of_mem hb hx
    rw [← h] at hget
    exact mem_of_get? hget

def weight (w : JsString → FabricValue → Nat) (fields : List (JsString × FabricValue)) : Nat :=
  (fields.map fun field => w field.1 field.2).sum

end Fields

mutual
/-- A value with the members of each record in key order, as values compare and hash. -/
def keySorted : FabricValue → FabricValue
  | .array slots => .array (keySortedSlots slots)
  | .record fields => .record (keySortedFields fields)
  | .special tag state => .special tag (keySorted state)
  | value => value

def keySortedSlots : List (Option FabricValue) → List (Option FabricValue)
  | [] => []
  | none :: slots => none :: keySortedSlots slots
  | some value :: slots => some (keySorted value) :: keySortedSlots slots

def keySortedFields : Members → Members
  | [] => []
  | (key, value) :: fields => Fields.set (keySortedFields fields) key (keySorted value)
end

/-- `valueEqual`, of values whose members may be in any order. -/
def sameValue (a b : FabricValue) : Bool := keySorted a = keySorted b
