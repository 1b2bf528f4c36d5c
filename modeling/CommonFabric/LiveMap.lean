import CommonFabric.JsMap

/-!
# Maps with live iterators

An entry of a map has the place at which it was put. An iterator is a place too: it goes on with the
first entry at or after it, so it sees what is set behind it, passes over what is deleted before it
gets there, and meets a key again that is deleted and set anew. What an iterator has before it is a
list, and each operation on the map is an operation on that list.
-/

namespace LiveMaps

variable {κ ν : Type} [DecidableEq κ]

/-- The entries with one key's value replaced. -/
def putEntry (k : κ) (v : ν) (entries : List (κ × ν)) : List (κ × ν) :=
  entries.map fun e => if e.1 = k then (k, v) else e

def dropKey (k : κ) (entries : List (κ × ν)) : List (κ × ν) := entries.filter fun e => e.1 ≠ k

theorem putEntry_append (k : κ) (v : ν) (xs ys : List (κ × ν)) :
    putEntry k v (xs ++ ys) = putEntry k v xs ++ putEntry k v ys := List.map_append

theorem dropKey_append (k : κ) (xs ys : List (κ × ν)) :
    dropKey k (xs ++ ys) = dropKey k xs ++ dropKey k ys := List.filter_append ..

theorem putEntry_of_not_mem {k : κ} {v : ν} {entries : List (κ × ν)}
    (h : k ∉ entries.map (·.1)) : putEntry k v entries = entries := by
  rw [putEntry]
  apply (List.map_congr_left _).trans (List.map_id _)
  intro e he
  have hne : e.1 ≠ k := fun heq => h (List.mem_map.2 ⟨e, he, heq⟩)
  simp [hne]

theorem dropKey_of_not_mem {k : κ} {entries : List (κ × ν)} (h : k ∉ entries.map (·.1)) :
    dropKey k entries = entries := by
  rw [dropKey, List.filter_eq_self]
  intro e he
  have hne : e.1 ≠ k := fun heq => h (List.mem_map.2 ⟨e, he, heq⟩)
  simp [hne]

/-- A test of keys passes what a replaced value leaves. -/
theorem filter_putEntry (k : κ) (v : ν) (test : κ → Bool) (entries : List (κ × ν)) :
    (putEntry k v entries).filter (fun e => test e.1) =
      putEntry k v (entries.filter fun e => test e.1) := by
  induction entries with
  | nil => rfl
  | cons e entries ih =>
    rw [putEntry, List.map_cons, ← putEntry, List.filter_cons, List.filter_cons, ih]
    by_cases hk : e.1 = k
    · rw [if_pos hk, hk]
      split
      · rw [putEntry, putEntry, List.map_cons, if_pos hk]
      · rfl
    · rw [if_neg hk]
      split
      · rw [putEntry, putEntry, List.map_cons, if_neg hk]
      · rfl

theorem mem_putEntry {k : κ} {v : ν} {entries : List (κ × ν)} {e : κ × ν} :
    e ∈ putEntry k v entries ↔ e.1 ≠ k ∧ e ∈ entries ∨ e = (k, v) ∧ k ∈ entries.map (·.1) := by
  rw [putEntry, List.mem_map]
  constructor
  · rintro ⟨b, hb, rfl⟩
    by_cases hk : b.1 = k
    · rw [if_pos hk]
      exact Or.inr ⟨rfl, List.mem_map.2 ⟨b, hb, hk⟩⟩
    · rw [if_neg hk]
      exact Or.inl ⟨hk, hb⟩
  · rintro (⟨hk, he⟩ | ⟨rfl, hmem⟩)
    · exact ⟨e, he, if_neg hk⟩
    · obtain ⟨b, hb, hk⟩ := List.mem_map.1 hmem
      exact ⟨b, hb, if_pos hk⟩

theorem filter_dropKey (k : κ) (test : κ → Bool) (entries : List (κ × ν)) :
    (dropKey k entries).filter (fun e => test e.1) =
      dropKey k (entries.filter fun e => test e.1) := by
  rw [dropKey, dropKey, List.filter_filter, List.filter_filter]
  apply List.filter_congr
  intro e _
  exact Bool.and_comm _ _

structure Cell (κ ν : Type) where
  place : Nat
  key : κ
  value : ν

structure LiveMap (κ ν : Type) where
  cells : List (Cell κ ν)
  /-- The place of the next entry that is put. -/
  length : Nat
  ordered : (cells.map (·.place)).Pairwise (· < ·)
  below : ∀ c ∈ cells, c.place < length
  nodup : (cells.map (·.key)).Nodup

namespace LiveMap

def empty : LiveMap κ ν := ⟨[], 0, List.Pairwise.nil, by simp, List.nodup_nil⟩

/-- The cells of entries that are put in one after another. -/
def cellsFrom : Nat → List (κ × ν) → List (Cell κ ν)
  | _, [] => []
  | i, e :: rest => ⟨i, e.1, e.2⟩ :: cellsFrom (i + 1) rest

omit [DecidableEq κ] in
theorem place_cellsFrom {i : Nat} {entries : List (κ × ν)} {c : Cell κ ν}
    (h : c ∈ cellsFrom i entries) : i ≤ c.place ∧ c.place < i + entries.length := by
  induction entries generalizing i with
  | nil => cases h
  | cons e entries ih =>
    rw [List.length_cons]
    cases List.mem_cons.1 h with
    | inl heq =>
      rw [heq]
      dsimp only
      omega
    | inr h =>
      have := ih h
      omega

omit [DecidableEq κ] in
theorem ordered_cellsFrom (i : Nat) (entries : List (κ × ν)) :
    ((cellsFrom i entries).map (·.place)).Pairwise (· < ·) := by
  induction entries generalizing i with
  | nil => exact List.Pairwise.nil
  | cons e entries ih =>
    rw [cellsFrom, List.map_cons, List.pairwise_cons]
    refine ⟨?_, ih (i + 1)⟩
    intro place hplace
    obtain ⟨c, hc, rfl⟩ := List.mem_map.1 hplace
    exact (place_cellsFrom hc).1

omit [DecidableEq κ] in
theorem keys_cellsFrom (i : Nat) (entries : List (κ × ν)) :
    (cellsFrom i entries).map (·.key) = entries.map (·.1) := by
  induction entries generalizing i with
  | nil => rfl
  | cons e entries ih => rw [cellsFrom, List.map_cons, List.map_cons, ih]

omit [DecidableEq κ] in
theorem entries_cellsFrom (i : Nat) (entries : List (κ × ν)) :
    (cellsFrom i entries).map (fun c => (c.key, c.value)) = entries := by
  induction entries generalizing i with
  | nil => rfl
  | cons e entries ih => rw [cellsFrom, List.map_cons, ih]

/-- `new Map(map)`. -/
def ofMap (map : JsMap κ ν) : LiveMap κ ν where
  cells := cellsFrom 0 map.entries
  length := map.entries.length
  ordered := ordered_cellsFrom 0 map.entries
  below := fun c hc => by
    have := place_cellsFrom hc
    omega
  nodup := by
    rw [keys_cellsFrom]
    exact map.nodup

def entries (m : LiveMap κ ν) : List (κ × ν) := m.cells.map fun c => (c.key, c.value)

def get (m : LiveMap κ ν) (k : κ) : Option ν := (m.cells.find? fun c => c.key = k).map (·.value)

def has (m : LiveMap κ ν) (k : κ) : Bool := m.cells.any fun c => c.key = k

def size (m : LiveMap κ ν) : Nat := m.cells.length

variable {m : LiveMap κ ν} {k : κ}

theorem has_iff : m.has k = true ↔ k ∈ m.cells.map (·.key) := by
  simp [has]

theorem has_iff_entries : m.has k = true ↔ k ∈ m.entries.map (·.1) := by
  rw [has_iff, entries, List.map_map]
  rfl

omit [DecidableEq κ] in
theorem entries_nodup (m : LiveMap κ ν) : (m.entries.map (·.1)).Nodup := by
  rw [entries, List.map_map]
  exact m.nodup

/-- A cell with the value that a key is given. -/
def Cell.put (k : κ) (v : ν) (c : Cell κ ν) : Cell κ ν :=
  if c.key = k then { c with value := v } else c

theorem Cell.put_place (k : κ) (v : ν) (c : Cell κ ν) : (put k v c).place = c.place := by
  rw [put]
  split <;> rfl

theorem Cell.put_key (k : κ) (v : ν) (c : Cell κ ν) : (put k v c).key = c.key := by
  rw [put]
  split <;> rfl

/-- The map with a value replaced. -/
def replace (m : LiveMap κ ν) (k : κ) (v : ν) : LiveMap κ ν where
  cells := m.cells.map (Cell.put k v)
  length := m.length
  ordered := by
    rw [List.map_map, Function.comp_def]
    simp only [Cell.put_place]
    exact m.ordered
  below := by
    intro c hc
    obtain ⟨c', hc', rfl⟩ := List.mem_map.1 hc
    rw [Cell.put_place]
    exact m.below c' hc'
  nodup := by
    rw [List.map_map, Function.comp_def]
    simp only [Cell.put_key]
    exact m.nodup

/-- A new entry at the end. -/
def append (m : LiveMap κ ν) (k : κ) (v : ν) (h : ¬m.has k = true) : LiveMap κ ν where
  cells := m.cells ++ [⟨m.length, k, v⟩]
  length := m.length + 1
  ordered := by
    rw [List.map_append, List.pairwise_append]
    refine ⟨m.ordered, List.pairwise_singleton _ _, ?_⟩
    intro i hi j hj
    obtain ⟨c, hc, rfl⟩ := List.mem_map.1 hi
    obtain rfl := List.mem_singleton.1 hj
    exact m.below c hc
  below := by
    intro c hc
    cases List.mem_append.1 hc with
    | inl hc => exact Nat.lt_succ_of_lt (m.below c hc)
    | inr hc =>
      rw [List.mem_singleton.1 hc]
      exact Nat.lt_succ_self _
  nodup := by
    rw [List.map_append, List.nodup_append]
    refine ⟨m.nodup, List.nodup_singleton _, ?_⟩
    intro key hkey key' hkey' heq
    obtain rfl := List.mem_singleton.1 hkey'
    rw [has_iff] at h
    exact h (heq ▸ hkey)

def set (m : LiveMap κ ν) (k : κ) (v : ν) : LiveMap κ ν :=
  if h : m.has k = true then m.replace k v else m.append k v h

def delete (m : LiveMap κ ν) (k : κ) : LiveMap κ ν where
  cells := m.cells.filter fun c => c.key ≠ k
  length := m.length
  ordered := m.ordered.sublist (List.filter_sublist.map _)
  below := fun c hc => m.below c (List.mem_filter.1 hc).1
  nodup := m.nodup.sublist (List.filter_sublist.map _)

def clear (m : LiveMap κ ν) : LiveMap κ ν where
  cells := []
  length := m.length
  ordered := List.Pairwise.nil
  below := by simp
  nodup := List.nodup_nil

/-- The next entry whose key passes a test. -/
def nextWhere (m : LiveMap κ ν) (test : κ → Bool) (i : Nat) : Option (Cell κ ν) :=
  m.cells.find? fun c => decide (i ≤ c.place) && test c.key

/-- The entry an iterator gives next. -/
def next (m : LiveMap κ ν) (i : Nat) : Option (Cell κ ν) := m.nextWhere (fun _ => true) i

/-- The entries that an iterator has before it. -/
def rest (m : LiveMap κ ν) (i : Nat) : List (κ × ν) :=
  (m.cells.filter fun c => i ≤ c.place).map fun c => (c.key, c.value)

omit [DecidableEq κ] in
@[simp] theorem rest_zero (m : LiveMap κ ν) : m.rest 0 = m.entries := by
  rw [rest, entries, List.filter_eq_self.2]
  simp

omit [DecidableEq κ] in
theorem rest_subset (m : LiveMap κ ν) (i : Nat) : m.rest i ⊆ m.entries :=
  List.map_subset _ (List.filter_subset_self _)

theorem rest_replace (m : LiveMap κ ν) (k : κ) (v : ν) (i : Nat) :
    (m.replace k v).rest i = putEntry k v (m.rest i) := by
  rw [rest, rest, replace]
  dsimp only
  induction m.cells with
  | nil => rfl
  | cons c cells ih =>
    rw [List.map_cons, List.filter_cons, List.filter_cons]
    rw [Cell.put_place]
    split
    · rw [List.map_cons, List.map_cons, ih, putEntry, putEntry, List.map_cons, Cell.put]
      by_cases hk : c.key = k <;> simp [hk]
    · exact ih

theorem rest_append (m : LiveMap κ ν) (k : κ) (v : ν) (h : ¬m.has k = true) {i : Nat}
    (hi : i ≤ m.length) : (m.append k v h).rest i = m.rest i ++ [(k, v)] := by
  rw [rest, rest, append, List.filter_append, List.map_append]
  simp [hi]

theorem rest_set (h : m.has k = true) (v : ν) (i : Nat) :
    (m.set k v).rest i = putEntry k v (m.rest i) := by
  rw [set, dif_pos h, rest_replace]

theorem rest_set_new (h : ¬m.has k = true) (v : ν) {i : Nat} (hi : i ≤ m.length) :
    (m.set k v).rest i = m.rest i ++ [(k, v)] := by
  rw [set, dif_neg h, rest_append m k v h hi]

theorem rest_delete (m : LiveMap κ ν) (k : κ) (i : Nat) :
    (m.delete k).rest i = dropKey k (m.rest i) := by
  rw [rest, rest, delete, dropKey, List.filter_map, List.filter_filter, List.filter_filter]
  apply congrArg
  apply List.filter_congr
  intro c _
  exact Bool.and_comm _ _

omit [DecidableEq κ] in
@[simp] theorem rest_clear (m : LiveMap κ ν) (i : Nat) : m.clear.rest i = [] := rfl

theorem length_le_set (m : LiveMap κ ν) (k : κ) (v : ν) : m.length ≤ (m.set k v).length := by
  rw [set]
  split
  · exact Nat.le_refl _
  · exact Nat.le_succ _

omit [DecidableEq κ] in
theorem rest_of_nextWhere_none {test : κ → Bool} {i : Nat} (h : m.nextWhere test i = none) :
    (m.rest i).filter (fun e => test e.1) = [] := by
  rw [nextWhere, List.find?_eq_none] at h
  rw [List.filter_eq_nil_iff]
  intro e he
  obtain ⟨c, hc, rfl⟩ := List.mem_map.1 he
  obtain ⟨hc, hplace⟩ := List.mem_filter.1 hc
  intro htest
  exact h c hc (by rw [hplace, htest]; rfl)

omit [DecidableEq κ] in
/-- An iterator gives the first of the entries before it. -/
theorem rest_of_nextWhere {test : κ → Bool} {i : Nat} {c : Cell κ ν}
    (h : m.nextWhere test i = some c) : (m.rest i).filter (fun e => test e.1) =
      (c.key, c.value) :: (m.rest (c.place + 1)).filter (fun e => test e.1) := by
  rw [nextWhere, List.find?_eq_some_iff_append] at h
  obtain ⟨hc, before, after, hcells, hbefore⟩ := h
  obtain ⟨hplace, htest⟩ := Bool.and_eq_true_iff.1 hc
  have hplace : i ≤ c.place := of_decide_eq_true hplace
  have hordered := m.ordered
  rw [hcells, List.map_append, List.map_cons, List.pairwise_append, List.pairwise_cons] at hordered
  obtain ⟨-, ⟨hafter, -⟩, hbelow⟩ := hordered
  have hfront : ((before.filter fun b => i ≤ b.place).map fun b => (b.key, b.value)).filter
      (fun e => test e.1) = [] := by
    rw [List.filter_eq_nil_iff]
    intro e he htest
    obtain ⟨b, hb, rfl⟩ := List.mem_map.1 he
    obtain ⟨hb, hle⟩ := List.mem_filter.1 hb
    have hnot := hbefore b hb
    rw [hle, htest] at hnot
    cases hnot
  have hfront' : before.filter (fun b => decide (c.place + 1 ≤ b.place)) = [] := by
    rw [List.filter_eq_nil_iff]
    intro b hb
    have hlt := hbelow b.place (List.mem_map_of_mem hb) c.place List.mem_cons_self
    rw [decide_eq_true_eq]
    omega
  have hback : after.filter (fun b => decide (i ≤ b.place)) =
      after.filter (fun b => decide (c.place + 1 ≤ b.place)) := by
    apply List.filter_congr
    intro b hb
    have hlt := hafter b.place (List.mem_map_of_mem hb)
    rw [decide_eq_decide]
    omega
  have hthis : ¬decide (c.place + 1 ≤ c.place) = true := by simp
  rw [rest, rest, hcells, List.filter_append, List.filter_append, List.filter_cons,
    List.filter_cons, hfront', hback, if_pos (decide_eq_true hplace), if_neg hthis,
    List.nil_append, List.map_append, List.filter_append, hfront, List.nil_append, List.map_cons,
    List.filter_cons, if_pos htest]

omit [DecidableEq κ] in
theorem place_lt_of_nextWhere {test : κ → Bool} {i : Nat} {c : Cell κ ν}
    (h : m.nextWhere test i = some c) : c.place + 1 ≤ m.length :=
  m.below c (List.mem_of_find?_eq_some h)

omit [DecidableEq κ] in
theorem rest_of_next_none {i : Nat} (h : m.next i = none) : m.rest i = [] := by
  have hrest := rest_of_nextWhere_none h
  rw [List.filter_eq_self.2 fun _ _ => rfl] at hrest
  exact hrest

omit [DecidableEq κ] in
theorem rest_of_next {i : Nat} {c : Cell κ ν} (h : m.next i = some c) :
    m.rest i = (c.key, c.value) :: m.rest (c.place + 1) := by
  have hrest := rest_of_nextWhere h
  rw [List.filter_eq_self.2 fun _ _ => rfl, List.filter_eq_self.2 fun _ _ => rfl] at hrest
  exact hrest

theorem find?_key {cells : List (Cell κ ν)} (h : (cells.map (·.key)).Nodup) {c : Cell κ ν}
    (hc : c ∈ cells) : cells.find? (fun b => b.key = c.key) = some c := by
  induction cells with
  | nil => cases hc
  | cons b cells ih =>
    rw [List.map_cons, List.nodup_cons] at h
    cases List.mem_cons.1 hc with
    | inl heq =>
      rw [heq]
      simp
    | inr hc =>
      have hne : ¬b.key = c.key := fun heq => h.1 (heq ▸ List.mem_map_of_mem hc)
      rw [List.find?_cons_of_neg (by simpa using hne)]
      exact ih h.2 hc

theorem get_eq_some_iff {v : ν} : m.get k = some v ↔ (k, v) ∈ m.entries := by
  rw [get, Option.map_eq_some_iff, entries, List.mem_map]
  constructor
  · rintro ⟨c, hc, rfl⟩
    have hkey : c.key = k := by simpa using List.find?_some hc
    exact ⟨c, List.mem_of_find?_eq_some hc, by rw [hkey]⟩
  · rintro ⟨c, hc, heq⟩
    cases heq
    exact ⟨c, find?_key m.nodup hc, rfl⟩

theorem get_eq_getEntries (m : LiveMap κ ν) (k : κ) : m.get k = JsMap.getEntries k m.entries := by
  rw [get, JsMap.getEntries, entries, List.find?_map, Option.map_map]
  rfl

theorem get_eq_none_iff : m.get k = none ↔ ¬m.has k = true := by
  rw [get, Option.map_eq_none_iff, List.find?_eq_none, has, List.any_eq_true]
  simp

theorem has_eq_isSome (m : LiveMap κ ν) (k : κ) : m.has k = (m.get k).isSome := by
  cases hget : m.get k with
  | none => exact Bool.eq_false_iff.2 (get_eq_none_iff.1 hget)
  | some v =>
    by_contra hnot
    rw [get_eq_none_iff.2 hnot] at hget
    cases hget

theorem get_set (m : LiveMap κ ν) (k k' : κ) (v : ν) :
    (m.set k v).get k' = if k = k' then some v else m.get k' := by
  apply Option.ext
  intro w
  rw [get_eq_some_iff, ← rest_zero]
  by_cases hhas : m.has k = true
  · rw [rest_set hhas, rest_zero, mem_putEntry, ← has_iff_entries]
    by_cases hk : k = k'
    · rw [if_pos hk, ← hk]
      simp [hhas, eq_comm]
    · rw [if_neg hk, get_eq_some_iff]
      simp [Ne.symm hk]
  · rw [rest_set_new hhas _ (Nat.zero_le _), rest_zero, List.mem_append, List.mem_singleton]
    by_cases hk : k = k'
    · have hnot : (k', w) ∉ m.entries := by
        intro hmem
        rw [has_iff_entries, hk] at hhas
        exact hhas (List.mem_map.2 ⟨_, hmem, rfl⟩)
      rw [if_pos hk, ← hk]
      rw [← hk] at hnot
      simp [hnot, eq_comm]
    · rw [if_neg hk, get_eq_some_iff]
      simp [Ne.symm hk]

theorem get_delete (m : LiveMap κ ν) {k k' : κ} (h : k' ≠ k) : (m.delete k).get k' = m.get k' := by
  apply Option.ext
  intro w
  rw [get_eq_some_iff, get_eq_some_iff, ← rest_zero, rest_delete, rest_zero, dropKey,
    List.mem_filter]
  simp [h]

omit [DecidableEq κ] in
theorem size_ofMap (map : JsMap κ ν) : (ofMap map).size = map.entries.length := by
  have hlength := congrArg List.length (entries_cellsFrom 0 map.entries)
  rw [List.length_map] at hlength
  exact hlength

omit [DecidableEq κ] in
theorem entries_ofMap (map : JsMap κ ν) : (ofMap map).entries = map.entries :=
  entries_cellsFrom 0 map.entries

theorem size_set (m : LiveMap κ ν) (k : κ) (v : ν) :
    (m.set k v).size = if m.has k then m.size else m.size + 1 := by
  rw [set]
  split
  · rename_i h
    rw [size, size, replace, List.length_map]
  · rename_i h
    rw [size, size, append, List.length_append]
    rfl

/-- One cell at most has a key. -/
theorem length_filter_key {cells : List (Cell κ ν)} (h : (cells.map (·.key)).Nodup) (k : κ) :
    (cells.filter fun c => c.key ≠ k).length =
      if cells.any fun c => c.key = k then cells.length - 1 else cells.length := by
  induction cells with
  | nil => rfl
  | cons c cells ih =>
    rw [List.map_cons, List.nodup_cons] at h
    have ih := ih h.2
    rw [List.filter_cons, List.any_cons, List.length_cons]
    by_cases hk : c.key = k
    · have hnot : cells.filter (fun c => decide (c.key ≠ k)) = cells := by
        rw [List.filter_eq_self]
        intro b hb
        have hne : b.key ≠ k := fun heq =>
          h.1 (List.mem_map.2 ⟨b, hb, heq.trans hk.symm⟩)
        simp [hne]
      rw [if_neg (by simp [hk]), hnot]
      simp [hk]
    · have hpos : cells.any (fun c => decide (c.key = k)) = true → 0 < cells.length := by
        intro hany
        obtain ⟨b, hb, -⟩ := List.any_eq_true.1 hany
        exact List.length_pos_of_mem hb
      rw [if_pos (by simp [hk]), List.length_cons, ih]
      simp only [hk, decide_false, Bool.false_or]
      split
      · rename_i hany
        have := hpos hany
        omega
      · rfl

theorem size_delete (m : LiveMap κ ν) (k : κ) :
    (m.delete k).size = if m.has k then m.size - 1 else m.size := by
  exact length_filter_key m.nodup k

end LiveMap

theorem setEntries_of_mem {k : κ} {entries : List (κ × ν)} (hnodup : (entries.map (·.1)).Nodup)
    (h : k ∈ entries.map (·.1)) (v : ν) :
    JsMap.setEntries k v entries = putEntry k v entries := by
  induction entries with
  | nil => cases h
  | cons x entries ih =>
    rw [List.map_cons, List.nodup_cons] at hnodup
    rw [JsMap.setEntries, putEntry, List.map_cons, ← putEntry]
    by_cases hk : x.1 = k
    · rw [if_pos hk, if_pos hk, putEntry_of_not_mem]
      rw [← hk]
      exact hnodup.1
    · rw [if_neg hk, if_neg hk]
      rw [List.map_cons] at h
      rw [ih hnodup.2 (List.mem_of_ne_of_mem (Ne.symm hk) h)]

theorem setEntries_of_not_mem {k : κ} {entries : List (κ × ν)} (h : k ∉ entries.map (·.1))
    (v : ν) : JsMap.setEntries k v entries = entries ++ [(k, v)] := by
  induction entries with
  | nil => rfl
  | cons x entries ih =>
    rw [List.map_cons, List.mem_cons, not_or] at h
    rw [JsMap.setEntries, if_neg (Ne.symm h.1), ih h.2]
    rfl

theorem mem_keys_of_has {m : JsMap κ ν} {k : κ} : m.has k = true ↔ k ∈ m.entries.map (·.1) := by
  rw [JsMap.has_iff, List.mem_map]
  constructor
  · rintro ⟨v, hv⟩
    exact ⟨(k, v), hv, rfl⟩
  · rintro ⟨e, he, rfl⟩
    exact ⟨e.2, he⟩

theorem entries_set {m : JsMap κ ν} {k : κ} (h : m.has k = true) (v : ν) :
    (m.set k v).entries = putEntry k v m.entries :=
  setEntries_of_mem m.nodup (mem_keys_of_has.1 h) v

theorem entries_set_new {m : JsMap κ ν} {k : κ} (h : ¬m.has k = true) (v : ν) :
    (m.set k v).entries = m.entries ++ [(k, v)] :=
  setEntries_of_not_mem (fun hmem => h (mem_keys_of_has.2 hmem)) v

theorem entries_deleteAll (m : JsMap κ ν) (ks : List κ) :
    (m.deleteAll ks).entries = m.entries.filter fun e => !decide (e.1 ∈ ks) := by
  induction ks generalizing m with
  | nil =>
    rw [List.filter_eq_self.2]
    · rfl
    · intro e _
      simp
  | cons k ks ih =>
    have hstep : m.deleteAll (k :: ks) = (m.delete k).deleteAll ks := rfl
    rw [hstep, ih, JsMap.delete, List.filter_filter]
    apply List.filter_congr
    intro e _
    by_cases hk : e.1 = k <;> simp [hk]

theorem getEntries_of_not_mem {k : κ} {entries : List (κ × ν)} (h : k ∉ entries.map (·.1)) :
    JsMap.getEntries k entries = none := by
  rw [JsMap.getEntries, Option.map_eq_none_iff, List.find?_eq_none]
  intro e he hk
  exact h (List.mem_map.2 ⟨e, he, by simpa using hk⟩)

theorem getEntries_cons (k : κ) (e : κ × ν) (entries : List (κ × ν)) :
    JsMap.getEntries k (e :: entries) =
      if e.1 = k then some e.2 else JsMap.getEntries k entries := by
  rw [JsMap.getEntries, List.find?_cons]
  by_cases hk : e.1 = k
  · simp [hk]
  · simp [hk, JsMap.getEntries]

/-- Changes replace the values of the keys that are there, and the others follow in their order. -/
theorem entries_setAll (m : JsMap κ ν) {changes : List (κ × ν)}
    (h : (changes.map (·.1)).Nodup) : (m.setAll changes).entries =
      (m.entries.map fun e => (e.1, (JsMap.getEntries e.1 changes).getD e.2)) ++
        changes.filter fun e => !m.has e.1 := by
  induction changes generalizing m with
  | nil =>
    have hsame : (m.entries.map fun e => (e.1, (JsMap.getEntries e.1 ([] : List (κ × ν))).getD e.2)) =
        m.entries := List.map_id _
    rw [hsame, List.filter_nil, List.append_nil]
    rfl
  | cons c changes ih =>
    rw [List.map_cons, List.nodup_cons] at h
    obtain ⟨hfresh, h⟩ := h
    have hstep : m.setAll (c :: changes) = (m.set c.1 c.2).setAll changes := rfl
    have hnone := getEntries_of_not_mem hfresh
    have hothers : ∀ e ∈ changes, (m.set c.1 c.2).has e.1 = m.has e.1 := by
      intro e he
      have hne : c.1 ≠ e.1 := fun heq => hfresh (heq ▸ List.mem_map_of_mem he)
      rw [JsMap.has, JsMap.has, JsMap.get_set_other m hne]
    have hfilter : changes.filter (fun e => !(m.set c.1 c.2).has e.1) =
        changes.filter fun e => !m.has e.1 := by
      apply List.filter_congr
      intro e he
      rw [hothers e he]
    rw [hstep, ih (m.set c.1 c.2) h, hfilter, List.filter_cons]
    by_cases hhas : m.has c.1 = true
    · rw [entries_set hhas, putEntry, List.map_map, if_neg (by rw [hhas]; simp)]
      apply congrArg (· ++ _)
      apply List.map_congr_left
      intro e _
      rw [Function.comp_apply, getEntries_cons]
      by_cases hk : e.1 = c.1
      · rw [if_pos hk, if_pos hk.symm, hnone, hk]
        rfl
      · rw [if_neg hk, if_neg (Ne.symm hk)]
    · have hkeys : ∀ e ∈ m.entries, c.1 ≠ e.1 := by
        intro e he heq
        exact hhas (JsMap.has_iff.2 ⟨e.2, heq ▸ he⟩)
      rw [entries_set_new hhas, List.map_append, List.append_assoc, if_pos (by simp [hhas])]
      have hold : (m.entries.map fun e => (e.1, (JsMap.getEntries e.1 changes).getD e.2)) =
          m.entries.map fun e => (e.1, (JsMap.getEntries e.1 (c :: changes)).getD e.2) := by
        apply List.map_congr_left
        intro e he
        rw [getEntries_cons, if_neg (hkeys e he)]
      have hlast : ([(c.1, c.2)].map fun e => (e.1, (JsMap.getEntries e.1 changes).getD e.2)) =
          [c] := by
        rw [List.map_singleton, hnone]
        rfl
      rw [hold, hlast]
      rfl

end LiveMaps
