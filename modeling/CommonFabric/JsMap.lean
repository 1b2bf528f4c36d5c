import Mathlib.Data.List.Nodup
import Mathlib.Data.List.Perm.Basic

/-!
# Maps that keep the order of insertion

A map is the list of its entries with distinct keys. Setting a key that is there replaces
its value in place, and setting a new one appends; what a key holds after either is all
that most readers of a map ask.
-/

structure JsMap (κ ν : Type) where
  entries : List (κ × ν)
  nodup : (entries.map (·.1)).Nodup

namespace JsMap

variable {κ ν : Type} [DecidableEq κ]

def empty : JsMap κ ν := ⟨[], List.nodup_nil⟩

def get (m : JsMap κ ν) (k : κ) : Option ν := (m.entries.find? fun e => e.1 = k).map (·.2)

def has (m : JsMap κ ν) (k : κ) : Bool := (m.get k).isSome

def keys (m : JsMap κ ν) : List κ := m.entries.map (·.1)

def values (m : JsMap κ ν) : List ν := m.entries.map (·.2)

/-- Entries with one more set, in place or at the end. -/
def setEntries (k : κ) (v : ν) : List (κ × ν) → List (κ × ν)
  | [] => [(k, v)]
  | e :: rest => if e.1 = k then (k, v) :: rest else e :: setEntries k v rest

variable {k : κ} {entries : List (κ × ν)} {m : JsMap κ ν}

theorem mem_setEntries {v : ν} {e : κ × ν}
    (h : e ∈ setEntries k v entries) : e = (k, v) ∨ e ∈ entries := by
  induction entries with
  | nil => simpa [setEntries] using h
  | cons x rest ih =>
    rw [setEntries] at h
    split at h
    · rcases List.mem_cons.1 h with h | h
      · exact .inl h
      · exact .inr (List.mem_cons_of_mem _ h)
    · rcases List.mem_cons.1 h with h | h
      · exact .inr (h ▸ List.mem_cons_self)
      · exact (ih h).imp_right (List.mem_cons_of_mem _)

theorem nodup_setEntries (k : κ) (v : ν)
    (h : (entries.map (·.1)).Nodup) : ((setEntries k v entries).map (·.1)).Nodup := by
  induction entries with
  | nil => simp [setEntries]
  | cons x rest ih =>
    rw [List.map_cons, List.nodup_cons] at h
    rw [setEntries]
    split
    · rename_i hx
      rw [List.map_cons, List.nodup_cons]
      exact hx ▸ h
    · rename_i hx
      rw [List.map_cons, List.nodup_cons]
      refine ⟨fun hmem => ?_, ih h.2⟩
      obtain ⟨e, he, hkey⟩ := List.mem_map.1 hmem
      rcases mem_setEntries he with rfl | he
      · exact hx hkey.symm
      · exact h.1 (List.mem_map.2 ⟨e, he, hkey⟩)

def set (m : JsMap κ ν) (k : κ) (v : ν) : JsMap κ ν :=
  ⟨setEntries k v m.entries, nodup_setEntries k v m.nodup⟩

def delete (m : JsMap κ ν) (k : κ) : JsMap κ ν :=
  ⟨m.entries.filter fun e => e.1 ≠ k,
    m.nodup.sublist ((List.filter_sublist).map (fun e : κ × ν => e.1))⟩

@[simp] theorem get_empty (k : κ) : (empty : JsMap κ ν).get k = none := rfl

theorem find?_setEntries (k k' : κ) (v : ν) (entries : List (κ × ν)) :
    ((setEntries k v entries).find? fun e => e.1 = k').map (·.2) =
      if k = k' then some v else (entries.find? fun e => e.1 = k').map (·.2) := by
  induction entries with
  | nil => by_cases h : k = k' <;> simp [setEntries, h]
  | cons x rest ih =>
    rw [setEntries]
    by_cases hx : x.1 = k
    · rw [if_pos hx]
      by_cases h : k = k'
      · simp [h]
      · simp [h, hx]
    · rw [if_neg hx]
      by_cases h : x.1 = k'
      · have hne : k ≠ k' := fun heq => hx (h.trans heq.symm)
        simp [h, hne]
      · simpa [h] using ih

/-- `children.get(seg)`, of entries alone. -/
def getEntries (k : κ) (entries : List (κ × ν)) : Option ν :=
  (entries.find? fun e => e.1 = k).map (·.2)

theorem getEntries_setEntries (k k' : κ) (v : ν) (entries : List (κ × ν)) :
    getEntries k' (setEntries k v entries) = if k = k' then some v else getEntries k' entries :=
  find?_setEntries k k' v entries

theorem isSome_getEntries :
    entries ≠ [] ↔ ∃ k, (getEntries k entries).isSome = true := by
  constructor
  · intro h
    obtain ⟨e, rest, rfl⟩ := List.exists_cons_of_ne_nil h
    exact ⟨e.1, by simp [getEntries]⟩
  · rintro ⟨k, hk⟩ rfl
    cases hk

/-- What is listed of the values gains what the one that is set has gained. -/
theorem flatMap_setEntries_perm {α : Type} {f : ν → List α} {v : ν} {gained : List α}
    (h : (f v).Perm (gained ++ ((getEntries k entries).map f).getD [])) :
    ((setEntries k v entries).flatMap fun e => f e.2).Perm
      (gained ++ entries.flatMap fun e => f e.2) := by
  induction entries with
  | nil => simpa [setEntries, getEntries] using h
  | cons x rest ih =>
    rw [setEntries]
    by_cases hx : x.1 = k
    · rw [if_pos hx, List.flatMap_cons, List.flatMap_cons, ← List.append_assoc]
      apply List.Perm.append_right
      simpa [getEntries, hx] using h
    · rw [if_neg hx, List.flatMap_cons, List.flatMap_cons]
      have hrest : (f v).Perm (gained ++ ((getEntries k rest).map f).getD []) := by
        simpa [getEntries, hx] using h
      exact ((ih hrest).append_left _).trans (List.perm_append_comm_assoc _ _ _)

theorem get_set (m : JsMap κ ν) (k k' : κ) (v : ν) :
    (m.set k v).get k' = if k = k' then some v else m.get k' :=
  find?_setEntries k k' v m.entries

@[simp] theorem get_set_self (m : JsMap κ ν) (k : κ) (v : ν) : (m.set k v).get k = some v := by
  rw [get_set, if_pos rfl]

theorem get_set_other (m : JsMap κ ν) {k' : κ} (h : k ≠ k') (v : ν) :
    (m.set k v).get k' = m.get k' := by
  rw [get_set, if_neg h]

theorem get_delete (m : JsMap κ ν) (k k' : κ) :
    (m.delete k).get k' = if k = k' then none else m.get k' := by
  rw [get, delete, List.find?_filter]
  by_cases h : k = k'
  · subst h
    rw [if_pos rfl, Option.map_eq_none_iff, List.find?_eq_none]
    intro e _
    simp
  · rw [if_neg h, get]
    congr 2
    funext e
    by_cases he : e.1 = k'
    · have hne : e.1 ≠ k := fun heq => h (heq.symm.trans he)
      simp [he, Ne.symm h]
    · simp [he]

@[simp] theorem get_delete_self (m : JsMap κ ν) (k : κ) : (m.delete k).get k = none := by
  rw [get_delete, if_pos rfl]

theorem get_delete_other (m : JsMap κ ν) {k' : κ} (h : k ≠ k') :
    (m.delete k).get k' = m.get k' := by
  rw [get_delete, if_neg h]

theorem mem_of_get {v : ν} (h : m.get k = some v) :
    (k, v) ∈ m.entries := by
  obtain ⟨e, he, rfl⟩ := Option.map_eq_some_iff.1 h
  have hkey : e.1 = k := by simpa using List.find?_some he
  exact hkey ▸ List.mem_of_find?_eq_some he

theorem get_of_mem {e : κ × ν} (h : e ∈ m.entries) : m.get e.1 = some e.2 := by
  obtain ⟨entries, hnodup⟩ := m
  rw [get]
  induction entries with
  | nil => cases h
  | cons x rest ih =>
    rw [List.map_cons, List.nodup_cons] at hnodup
    rcases List.mem_cons.1 h with rfl | h
    · simp
    · have hne : x.1 ≠ e.1 := fun heq => hnodup.1 (List.mem_map.2 ⟨e, h, heq.symm⟩)
      rw [List.find?_cons_of_neg (by simpa using hne)]
      exact ih hnodup.2 h

theorem get_eq_some_iff {v : ν} :
    m.get k = some v ↔ (k, v) ∈ m.entries :=
  ⟨mem_of_get, fun h => get_of_mem h⟩

theorem has_iff : m.has k = true ↔ ∃ v, (k, v) ∈ m.entries := by
  rw [has, Option.isSome_iff_exists]
  exact exists_congr fun v => get_eq_some_iff

/-- The entries set one after another. -/
def setAll (m : JsMap κ ν) (entries : List (κ × ν)) : JsMap κ ν :=
  entries.foldl (fun m e => m.set e.1 e.2) m

/-- The keys deleted one after another. -/
def deleteAll (m : JsMap κ ν) (ks : List κ) : JsMap κ ν := ks.foldl delete m

theorem get_setAll_of_not_mem (m : JsMap κ ν)
    (h : k ∉ entries.map (·.1)) : (m.setAll entries).get k = m.get k := by
  induction entries generalizing m with
  | nil => rfl
  | cons e rest ih =>
    rw [List.map_cons, List.mem_cons, not_or] at h
    rw [setAll, List.foldl_cons, ← setAll, ih _ h.2, get_set_other _ (Ne.symm h.1)]

/-- Of entries with distinct keys each is there after all are set. -/
theorem get_setAll_of_mem (m : JsMap κ ν)
    (hnodup : (entries.map (·.1)).Nodup) {e : κ × ν} (h : e ∈ entries) :
    (m.setAll entries).get e.1 = some e.2 := by
  induction entries generalizing m with
  | nil => cases h
  | cons x rest ih =>
    rw [List.map_cons, List.nodup_cons] at hnodup
    rw [setAll, List.foldl_cons, ← setAll]
    rcases List.mem_cons.1 h with rfl | h
    · rw [get_setAll_of_not_mem _ hnodup.1, get_set_self]
    · exact ih _ hnodup.2 h

theorem get_deleteAll (m : JsMap κ ν) (ks : List κ) (k : κ) :
    (m.deleteAll ks).get k = if k ∈ ks then none else m.get k := by
  induction ks generalizing m with
  | nil => simp [deleteAll]
  | cons x rest ih =>
    rw [deleteAll, List.foldl_cons, ← deleteAll, ih, get_delete]
    by_cases hk : k ∈ rest
    · simp [hk]
    · by_cases hx : x = k
      · simp [hx]
      · simp [hk, hx, Ne.symm hx]

end JsMap
