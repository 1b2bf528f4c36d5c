import CommonFabric.JsSet
import CommonFabric.LiveMap

/-!
# Staged maps

A staged map holds changes apart from the map they are for: what was set, which of the base's keys
were removed, and whether all of them were. An iterator runs through the base first and then through
the changes that are not in their place there.
-/

namespace StagedMaps

open LiveMaps

variable {κ ν : Type} [DecidableEq κ]

structure StagedMap (κ ν : Type) where
  base : JsMap κ ν
  copy : Option (ν → ν)
  changes : LiveMap κ ν
  removed : JsSet κ
  cleared : Bool
  size : Nat

/-- Where an iterator of a staged map stands. -/
inductive Position where
  | base (i : Nat)
  | changes (place : Nat)
  | done

namespace StagedMap

def ofBase (base : JsMap κ ν) (copy : Option (ν → ν)) : StagedMap κ ν :=
  ⟨base, copy, LiveMap.empty, JsSet.empty, false, base.entries.length⟩

def has (s : StagedMap κ ν) (key : κ) : Bool :=
  s.changes.has key || (!s.cleared && !s.removed.has key && s.base.has key)

/-- A value of the base is copied when it is first read. -/
def get (s : StagedMap κ ν) (key : κ) : Option ν × StagedMap κ ν :=
  match s.changes.get key with
  | some value => (some value, s)
  | none =>
    if s.cleared || s.removed.has key then (none, s)
    else
      match s.base.get key, s.copy with
      | none, _ => (none, s)
      | some value, none => (some value, s)
      | some value, some copy =>
        (some (copy value), { s with changes := s.changes.set key (copy value) })

def set (s : StagedMap κ ν) (key : κ) (value : ν) : StagedMap κ ν :=
  { s with
    size := if s.has key then s.size else s.size + 1
    changes := s.changes.set key value }

def delete (s : StagedMap κ ν) (key : κ) : Bool × StagedMap κ ν :=
  if s.has key = false then (false, s)
  else
    (true, { s with
      size := s.size - 1
      changes := s.changes.delete key
      removed := if !s.cleared && s.base.has key then s.removed.add key else s.removed })

def clear (s : StagedMap κ ν) : StagedMap κ ν :=
  { s with cleared := true, size := 0, changes := s.changes.clear, removed := JsSet.empty }

/-- The first key of the base from a place on that is not removed. -/
def nextKey (s : StagedMap κ ν) : Nat → List (κ × ν) → Option (Nat × κ)
  | _, [] => none
  | i, (key, _) :: rest => if s.removed.has key then s.nextKey (i + 1) rest else some (i, key)

/-- Whether a change is not in its place in the base. -/
def shown (s : StagedMap κ ν) (key : κ) : Bool :=
  s.cleared || s.removed.has key || !s.base.has key

def nextChange (s : StagedMap κ ν) (place : Nat) : Option (κ × ν) × Position :=
  match s.changes.nextWhere s.shown place with
  | none => (none, .done)
  | some c => (some (c.key, c.value), .changes (c.place + 1))

/-- One step of `entries()`. -/
def next (s : StagedMap κ ν) : Position → Option (κ × ν) × Position × StagedMap κ ν
  | .base i =>
    match if s.cleared then none else s.nextKey i (s.base.entries.drop i) with
    | some (j, key) => ((s.get key).1.map fun value => (key, value), .base (j + 1), (s.get key).2)
    | none => ((s.nextChange 0).1, (s.nextChange 0).2, s)
  | .changes place => ((s.nextChange place).1, (s.nextChange place).2, s)
  | .done => (none, .done, s)

def commit (s : StagedMap κ ν) : JsMap κ ν :=
  (if s.cleared then JsMap.empty else s.base.deleteAll s.removed.items).setAll s.changes.entries

/-- The value of a key of the base that is not removed. -/
def current (s : StagedMap κ ν) (e : κ × ν) : κ × ν := (e.1, (s.changes.get e.1).getD e.2)

/-- What the base has from a place on. -/
def front (s : StagedMap κ ν) (i : Nat) : List (κ × ν) :=
  ((s.base.entries.drop i).filter fun e => !s.removed.has e.1).map s.current

/-- What the changes have from a place on. -/
def tail (s : StagedMap κ ν) (place : Nat) : List (κ × ν) :=
  (s.changes.rest place).filter fun e => s.shown e.1

def rest (s : StagedMap κ ν) : Position → Option (List (κ × ν))
  | .base i => some (if s.cleared then s.tail 0 else s.front i ++ s.tail 0)
  | .changes place => some (s.tail place)
  | .done => none

/-- The entries in their order. -/
def entries (s : StagedMap κ ν) : List (κ × ν) :=
  if s.cleared then s.tail 0 else s.front 0 ++ s.tail 0

theorem rest_start (s : StagedMap κ ν) : s.rest (.base 0) = some s.entries := rfl

/-- A place that an iterator can be at. -/
def Reached (s : StagedMap κ ν) : Position → Prop
  | .changes place => place ≤ s.changes.length
  | _ => True

variable {s : StagedMap κ ν} {e : κ × ν} {place : Nat} {pos : Position} {l : List (κ × ν)} {key : κ}

theorem mem_front {i : Nat} (h : e ∈ s.front i) :
    s.removed.has e.1 = false ∧ s.base.has e.1 = true := by
  obtain ⟨b, hb, rfl⟩ := List.mem_map.1 h
  obtain ⟨hb, hkept⟩ := List.mem_filter.1 hb
  exact ⟨by simpa [current] using hkept, JsMap.has_iff.2 ⟨b.2, List.mem_of_mem_drop hb⟩⟩

theorem mem_tail (h : e ∈ s.tail place) :
    s.changes.get e.1 = some e.2 ∧ s.shown e.1 = true := by
  obtain ⟨he, hshown⟩ := List.mem_filter.1 h
  exact ⟨LiveMap.get_eq_some_iff.2 (s.changes.rest_subset place he), hshown⟩

/-- The value that a key has, before it is copied. -/
def value (s : StagedMap κ ν) (key : κ) : Option ν :=
  (s.changes.get key).or (if s.cleared || s.removed.has key then none else s.base.get key)

theorem has_eq_value (s : StagedMap κ ν) (key : κ) : s.has key = (s.value key).isSome := by
  rw [has, value, Option.isSome_or]
  rw [LiveMap.has_eq_isSome, JsMap.has]
  cases s.cleared <;> cases s.removed.has key <;> rfl

theorem value_of_mem_front {i : Nat} (hcleared : s.cleared = false)
    (h : e ∈ s.front i) : s.value e.1 = some e.2 := by
  have hremoved := (mem_front h).1
  obtain ⟨b, hb, rfl⟩ := List.mem_map.1 h
  have hbase : s.base.get b.1 = some b.2 :=
    JsMap.get_of_mem (List.mem_of_mem_drop (List.mem_filter.1 hb).1)
  have hb1 : s.removed.has b.1 = false := hremoved
  rw [value, current, hcleared, hb1, Bool.or_self, if_neg Bool.false_ne_true, hbase]
  cases s.changes.get b.1 <;> rfl

/-- Every entry before an iterator has the value of its key. -/
theorem value_of_mem_rest (hl : s.rest pos = some l) (he : e ∈ l) : s.value e.1 = some e.2 := by
  have htail : ∀ place, e ∈ s.tail place → s.value e.1 = some e.2 := by
    intro place h
    rw [value, (mem_tail h).1]
    rfl
  cases pos with
  | base i =>
    cases hl
    split at he
    · exact htail 0 he
    · rename_i hcleared
      cases List.mem_append.1 he with
      | inl he => exact value_of_mem_front (by simpa using hcleared) he
      | inr he => exact htail 0 he
  | changes place =>
    cases hl
    exact htail place he
  | done => cases hl

/-- A key with a value is among the entries. -/
theorem mem_keys_entries (h : s.has key = true) :
    key ∈ s.entries.map (·.1) := by
  have hchange : ∀ v, s.changes.get key = some v → s.shown key = true →
      key ∈ (s.tail 0).map (·.1) := by
    intro v hv hshown
    refine List.mem_map.2 ⟨(key, v), List.mem_filter.2 ⟨?_, hshown⟩, rfl⟩
    rw [LiveMap.rest_zero]
    exact LiveMap.get_eq_some_iff.1 hv
  rw [entries]
  by_cases hshown : s.shown key = true
  · have hv : ∃ v, s.changes.get key = some v := by
      rw [← Option.isSome_iff_exists, ← LiveMap.has_eq_isSome]
      rw [has] at h
      rw [shown] at hshown
      revert h hshown
      cases s.cleared <;> cases s.removed.has key <;> cases s.base.has key <;> simp
    obtain ⟨v, hv⟩ := hv
    split
    · exact hchange v hv hshown
    · rw [List.map_append]
      exact List.mem_append_right _ (hchange v hv hshown)
  · have hnot : s.cleared = false ∧ s.removed.has key = false ∧ s.base.has key = true := by
      rw [shown] at hshown
      revert hshown
      cases s.cleared <;> cases s.removed.has key <;> cases s.base.has key <;> simp
    obtain ⟨hcleared, hremoved, hbase⟩ := hnot
    obtain ⟨v, hv⟩ := JsMap.has_iff.1 hbase
    rw [hcleared, if_neg Bool.false_ne_true, List.map_append]
    apply List.mem_append_left
    refine List.mem_map.2 ⟨s.current (key, v), List.mem_map.2 ⟨(key, v), ?_, rfl⟩, rfl⟩
    exact List.mem_filter.2 ⟨hv, by rw [hremoved]; rfl⟩

theorem not_mem_keys (hl : s.rest pos = some l) (h : s.has key = false) : key ∉ l.map (·.1) := by
  intro hmem
  obtain ⟨e, he, rfl⟩ := List.mem_map.1 hmem
  rw [has_eq_value, value_of_mem_rest hl he] at h
  cases h

/-- The base's part after a key has got a value. -/
theorem front_set (s : StagedMap κ ν) (key : κ) (v : ν) (i : Nat) :
    (s.set key v).front i = putEntry key v (s.front i) := by
  rw [front, front, putEntry, List.map_map]
  apply List.map_congr_left
  intro e _
  rw [Function.comp_apply, current, current, set]
  dsimp only
  rw [LiveMap.get_set]
  by_cases hk : e.1 = key
  · rw [if_pos hk.symm, if_pos hk, hk]
    rfl
  · rw [if_neg (Ne.symm hk), if_neg hk]

theorem tail_set (h : s.has key = true) (v : ν) (hplace : place ≤ s.changes.length) :
    (s.set key v).tail place = putEntry key v (s.tail place) := by
  rw [tail, tail, ← filter_putEntry key v s.shown]
  by_cases hchanges : s.changes.has key = true
  · rw [set]
    dsimp only
    rw [LiveMap.rest_set hchanges]
    rfl
  · -- The key is in its place in the base, so the change is not shown.
    have hnot : s.shown key = false := by
      rw [has] at h
      rw [shown]
      revert h hchanges
      cases s.changes.has key <;> cases s.cleared <;> cases s.removed.has key <;>
        cases s.base.has key <;> simp
    have hkey : key ∉ (s.changes.rest place).map (·.1) := by
      intro hmem
      rw [LiveMap.has_iff_entries] at hchanges
      exact hchanges (List.map_subset _ (s.changes.rest_subset place) hmem)
    rw [set]
    dsimp only
    rw [LiveMap.rest_set_new hchanges v hplace, putEntry_of_not_mem hkey, List.filter_append]
    have hlast : [(key, v)].filter (fun e => s.shown e.1) = [] := by
      rw [List.filter_singleton, hnot]
      rfl
    exact (congrArg _ hlast).trans (List.append_nil _)

theorem tail_set_new (h : s.has key = false) (v : ν) (hplace : place ≤ s.changes.length) :
    (s.set key v).tail place = s.tail place ++ [(key, v)] := by
  have hboth : s.changes.has key = false ∧ s.shown key = true := by
    rw [has] at h
    rw [shown]
    revert h
    cases s.changes.has key <;> cases s.cleared <;> cases s.removed.has key <;>
      cases s.base.has key <;> simp
  rw [tail, tail, set]
  dsimp only
  rw [LiveMap.rest_set_new (Bool.eq_false_iff.1 hboth.1) v hplace, List.filter_append]
  have hlast : [(key, v)].filter (fun e => s.shown e.1) = [(key, v)] := by
    rw [List.filter_singleton, hboth.2]
    rfl
  exact congrArg _ hlast

/-- An entry is set in its place. -/
theorem rest_set (h : s.has key = true) (v : ν) (hpos : s.Reached pos) :
    (s.set key v).rest pos = (s.rest pos).map (putEntry key v) := by
  cases pos with
  | base i =>
    rw [rest, rest, tail_set h v (Nat.zero_le _), front_set, Option.map_some]
    split
    · rename_i hcleared
      rw [if_pos (show s.cleared = true from hcleared)]
    · rename_i hcleared
      rw [if_neg (show ¬s.cleared = true from hcleared), putEntry_append]
  | changes place =>
    rw [rest, rest, tail_set h v hpos]
    rfl
  | done => rfl

/-- A new entry is set behind the others. -/
theorem rest_set_new (h : s.has key = false) (v : ν) (hpos : s.Reached pos) :
    (s.set key v).rest pos = (s.rest pos).map (· ++ [(key, v)]) := by
  cases pos with
  | base i =>
    rw [rest, rest, tail_set_new h v (Nat.zero_le _), front_set, Option.map_some]
    split
    · rename_i hcleared
      rw [if_pos (show s.cleared = true from hcleared)]
    · rename_i hcleared
      rw [if_neg (show ¬s.cleared = true from hcleared), List.append_assoc, putEntry_of_not_mem]
      intro hmem
      have hcleared : s.cleared = false := Bool.eq_false_iff.2 hcleared
      have hrest : s.rest (.base i) = some (s.front i ++ s.tail 0) := by
        rw [rest, hcleared, if_neg Bool.false_ne_true]
      apply not_mem_keys hrest h
      rw [List.map_append]
      exact List.mem_append_left _ hmem
  | changes place =>
    rw [rest, rest, tail_set_new h v hpos]
    rfl
  | done => rfl

theorem reached_set (h : s.Reached pos) (key : κ) (v : ν) :
    (s.set key v).Reached pos := by
  cases pos with
  | changes place => exact Nat.le_trans h (s.changes.length_le_set key v)
  | base i => trivial
  | done => trivial

theorem shown_delete (h : s.has key = true) {key' : κ} (hne : key' ≠ key) :
    (s.delete key).2.shown key' = s.shown key' := by
  rw [shown, shown, delete, if_neg (by rw [h]; exact Bool.noConfusion)]
  dsimp only
  split
  · rw [JsSet.has_add_of_ne hne]
  · rfl

theorem tail_delete (h : s.has key = true) (place : Nat) :
    (s.delete key).2.tail place = dropKey key (s.tail place) := by
  have hchanges : (s.delete key).2.changes = s.changes.delete key := by
    rw [delete, if_neg (by rw [h]; exact Bool.noConfusion)]
  rw [tail, tail, hchanges, LiveMap.rest_delete, ← filter_dropKey key s.shown]
  apply List.filter_congr
  intro e he
  exact shown_delete h (by simpa using (List.mem_filter.1 he).2)

theorem front_delete (h : s.has key = true) (hcleared : s.cleared = false) (i : Nat) :
    (s.delete key).2.front i = dropKey key (s.front i) := by
  rw [front, front, dropKey, List.filter_map, List.filter_filter]
  have hstate : (s.delete key).2 = { s with
      size := s.size - 1
      changes := s.changes.delete key
      removed := if s.base.has key then s.removed.add key else s.removed } := by
    rw [delete, if_neg (by rw [h]; exact Bool.noConfusion), hcleared]
    rfl
  rw [hstate]
  dsimp only
  have hfilter : (s.base.entries.drop i).filter (fun e =>
      !(if s.base.has key then s.removed.add key else s.removed : JsSet κ).has e.1) =
      (s.base.entries.drop i).filter fun e =>
        ((fun e => decide (e.1 ≠ key)) ∘ s.current) e && !s.removed.has e.1 := by
    apply List.filter_congr
    intro e he
    rw [Function.comp_apply, current]
    by_cases hk : e.1 = key
    · have hbase : s.base.has key = true :=
        JsMap.has_iff.2 ⟨e.2, hk ▸ List.mem_of_mem_drop he⟩
      rw [if_pos hbase, hk]
      simp
    · split
      · rw [JsSet.has_add_of_ne hk]
        simp [hk]
      · simp [hk]
  rw [hfilter]
  apply List.map_congr_left
  intro e he
  have hne : e.1 ≠ key :=
    of_decide_eq_true (Bool.and_eq_true_iff.1 (List.mem_filter.1 he).2).1
  rw [current, current]
  dsimp only
  rw [LiveMap.get_delete _ hne]

/-- A key that is deleted is passed over. -/
theorem rest_delete (key : κ) (pos : Position) :
    (s.delete key).2.rest pos = (s.rest pos).map (dropKey key) := by
  by_cases h : s.has key = true
  · have hcleared : (s.delete key).2.cleared = s.cleared := by
      rw [delete, if_neg (by rw [h]; exact Bool.noConfusion)]
    cases pos with
    | base i =>
      rw [rest, rest, hcleared, tail_delete h, Option.map_some]
      split
      · rfl
      · rename_i hnot
        rw [front_delete h (by simpa using hnot), dropKey_append]
    | changes place =>
      rw [rest, rest, tail_delete h]
      rfl
    | done => rfl
  · have h : s.has key = false := Bool.eq_false_iff.2 h
    have hstate : (s.delete key).2 = s := by
      rw [delete, if_pos h]
    rw [hstate]
    cases hl : s.rest pos with
    | none => rfl
    | some l => rw [Option.map_some, dropKey_of_not_mem (not_mem_keys hl h)]

theorem reached_delete (h : s.Reached pos) (key : κ) :
    (s.delete key).2.Reached pos := by
  cases pos with
  | changes place =>
    rw [delete]
    split
    · exact h
    · exact h
  | base i => trivial
  | done => trivial

theorem rest_clear (s : StagedMap κ ν) (pos : Position) :
    s.clear.rest pos = (s.rest pos).map fun _ => [] := by
  cases pos with
  | base i => rfl
  | changes place => rfl
  | done => rfl

omit [DecidableEq κ] in
theorem reached_clear (h : s.Reached pos) :
    s.clear.Reached pos := by
  cases pos with
  | changes place => exact h
  | base i => trivial
  | done => trivial

/-- Reading a key gives its value or a copy of it, and puts the copy in its place. -/
theorem get_cases (s : StagedMap κ ν) (key : κ) : s.get key = (s.value key, s) ∨
    ∃ copy v, s.copy = some copy ∧ s.value key = some v ∧ s.get key = (some (copy v),
      { s with changes := s.changes.set key (copy v) }) := by
  rw [get, value]
  cases s.changes.get key with
  | some v => exact Or.inl rfl
  | none =>
    dsimp only
    split
    · exact Or.inl rfl
    · cases s.base.get key with
      | none => exact Or.inl rfl
      | some v =>
        cases hcopy : s.copy with
        | none => exact Or.inl rfl
        | some copy => exact Or.inr ⟨copy, v, rfl, rfl, rfl⟩

theorem nextKey_none {i : Nat}
    (h : s.nextKey i l = none) : l.filter (fun e => !s.removed.has e.1) = [] := by
  induction l generalizing i with
  | nil => rfl
  | cons e l ih =>
    rw [nextKey] at h
    split at h
    · rename_i hremoved
      rw [List.filter_cons_of_neg (by simpa using hremoved)]
      exact ih h
    · cases h

theorem nextKey_some {i j : Nat}
    (h : s.nextKey i l = some (j, key)) : i ≤ j ∧ ∃ v, l[j - i]? = some (key, v) ∧
      l.filter (fun e => !s.removed.has e.1) =
        (key, v) :: (l.drop (j - i + 1)).filter fun e => !s.removed.has e.1 := by
  induction l generalizing i with
  | nil => cases h
  | cons e l ih =>
    rw [nextKey] at h
    split at h
    · rename_i hremoved
      obtain ⟨hle, v, hget, hfilter⟩ := ih h
      refine ⟨by omega, v, ?_, ?_⟩
      · rw [show j - i = j - (i + 1) + 1 by omega, List.getElem?_cons_succ]
        exact hget
      · rw [List.filter_cons_of_neg (by simpa using hremoved), hfilter,
          show j - i + 1 = (j - (i + 1) + 1) + 1 by omega, List.drop_succ_cons]
    · rename_i hkept
      cases h
      refine ⟨Nat.le_refl _, e.2, ?_, ?_⟩
      · rw [Nat.sub_self, List.getElem?_cons_zero]
      · rw [Nat.sub_self, List.filter_cons_of_pos (by rw [Bool.eq_false_iff.2 hkept]; rfl),
          List.drop_succ_cons, List.drop_zero]

theorem set_of_has (h : s.has key = true) (v : ν) :
    s.set key v = { s with changes := s.changes.set key v } := by
  rw [set, if_pos h]

theorem nextChange_none (h : s.tail place = []) :
    s.nextChange place = (none, .done) := by
  rw [nextChange]
  cases hnext : s.changes.nextWhere s.shown place with
  | none => rfl
  | some c =>
    rw [tail, LiveMap.rest_of_nextWhere hnext] at h
    cases h

theorem nextChange_some
    (h : s.tail place = e :: l) : ∃ place', s.nextChange place = (some e, .changes place') ∧
      place' ≤ s.changes.length ∧ s.tail place' = l := by
  rw [nextChange]
  cases hnext : s.changes.nextWhere s.shown place with
  | none =>
    rw [tail, LiveMap.rest_of_nextWhere_none hnext] at h
    cases h
  | some c =>
    rw [tail, LiveMap.rest_of_nextWhere hnext] at h
    cases h
    exact ⟨c.place + 1, rfl, LiveMap.place_lt_of_nextWhere hnext, rfl⟩

/-- What is left of the base where the next key is found. -/
theorem front_of_nextKey {i j : Nat} (h : s.nextKey i (s.base.entries.drop i) = some (j, key)) :
    ∃ v, s.front i = (key, v) :: s.front (j + 1) := by
  obtain ⟨hle, v, -, hfilter⟩ := nextKey_some h
  rw [front, front, hfilter, List.drop_drop, show i + (j - i + 1) = j + 1 by omega, List.map_cons]
  exact ⟨_, rfl⟩

/-- An iterator with nothing before it is done. -/
theorem next_nil (h : s.rest pos = some []) :
    s.next pos = (none, .done, s) := by
  cases pos with
  | base i =>
    rw [rest, Option.some_inj] at h
    have hkey : (if s.cleared then none else s.nextKey i (s.base.entries.drop i)) = none := by
      split
      · rfl
      · rename_i hcleared
        rw [if_neg hcleared, List.append_eq_nil_iff] at h
        cases hnext : s.nextKey i (s.base.entries.drop i) with
        | none => rfl
        | some r =>
          obtain ⟨v, hfront⟩ := front_of_nextKey hnext
          rw [hfront] at h
          cases h.1
    have htail : s.tail 0 = [] := by
      split at h
      · exact h
      · exact (List.append_eq_nil_iff.1 h).2
    rw [next, hkey, nextChange_none htail]
  | changes place =>
    rw [rest, Option.some_inj] at h
    rw [next, nextChange_none h]
  | done => rfl

/-- An iterator gives the first entry before it, or a copy of it. -/
theorem next_cons (h : s.rest pos = some (e :: l)) : ∃ pos', s.Reached pos' ∧ s.rest pos' = some l ∧
      (s.next pos = (some e, pos', s) ∨ ∃ copy, s.copy = some copy ∧
        s.next pos = (some (e.1, copy e.2), pos', s.set e.1 (copy e.2))) := by
  have hvalue := value_of_mem_rest h List.mem_cons_self
  cases pos with
  | base i =>
    rw [rest, Option.some_inj] at h
    cases hkey : (if s.cleared then none else s.nextKey i (s.base.entries.drop i)) with
    | none =>
      have htail : s.tail 0 = e :: l := by
        split at h
        · exact h
        · rename_i hcleared
          rw [if_neg hcleared] at hkey
          rw [front, nextKey_none hkey] at h
          exact h
      obtain ⟨place, hnext, hplace, hrest⟩ := nextChange_some htail
      refine ⟨.changes place, hplace, congrArg some hrest, Or.inl ?_⟩
      rw [next, hkey, hnext]
    | some r =>
      obtain ⟨j, key⟩ := r
      split at hkey
      · cases hkey
      · rename_i hcleared
        obtain ⟨v, hfront⟩ := front_of_nextKey hkey
        rw [if_neg hcleared, hfront, List.cons_append, List.cons.injEq] at h
        obtain ⟨rfl, rfl⟩ := h
        refine ⟨.base (j + 1), trivial, ?_, ?_⟩
        · rw [rest, if_neg hcleared]
        · rw [next, if_neg hcleared, hkey]
          dsimp only at hvalue ⊢
          obtain hget | ⟨copy, w, hcopy, hw, hget⟩ := s.get_cases key
          · rw [hget, hvalue]
            exact Or.inl rfl
          · rw [hvalue] at hw
            cases hw
            have hhas : s.has key = true := by
              rw [has_eq_value, hvalue]
              rfl
            rw [hget]
            refine Or.inr ⟨copy, hcopy, ?_⟩
            rw [set_of_has hhas]
            rfl
  | changes place =>
    rw [rest, Option.some_inj] at h
    obtain ⟨place', hnext, hplace, hrest⟩ := nextChange_some h
    refine ⟨.changes place', hplace, congrArg some hrest, Or.inl ?_⟩
    rw [next, hnext]
  | done => cases h

theorem entries_ofBase (base : JsMap κ ν) (copy : Option (ν → ν)) :
    (ofBase base copy).entries = base.entries := by
  have hfront : (ofBase base copy).front 0 = base.entries := by
    rw [front, List.drop_zero]
    have hall : base.entries.filter (fun e => !(ofBase base copy).removed.has e.1) =
        base.entries := List.filter_eq_self.2 fun _ _ => rfl
    exact (congrArg _ hall).trans (List.map_id _)
  rw [entries, hfront]
  exact List.append_nil _

/-- The base gets the entries of the staged map, in their order. -/
theorem entries_commit (s : StagedMap κ ν) : s.commit.entries = s.entries := by
  rw [commit, entries_setAll _ s.changes.entries_nodup, entries, tail, LiveMap.rest_zero]
  by_cases hcleared : s.cleared = true
  · rw [if_pos hcleared, if_pos hcleared]
    apply List.filter_congr
    intro e _
    rw [shown, hcleared]
    rfl
  · rw [if_neg hcleared, if_neg hcleared, front, List.drop_zero, entries_deleteAll]
    have hcleared : s.cleared = false := Bool.eq_false_iff.2 hcleared
    have hkept : (s.base.entries.filter fun e => !decide (e.1 ∈ s.removed.items)) =
        s.base.entries.filter fun e => !s.removed.has e.1 := rfl
    have hvalues : ∀ e : κ × ν, (e.1, (JsMap.getEntries e.1 s.changes.entries).getD e.2) =
        s.current e := by
      intro e
      rw [current, LiveMap.get_eq_getEntries]
    have hshown : ∀ e ∈ s.changes.entries,
        (!(s.base.deleteAll s.removed.items).has e.1) = s.shown e.1 := by
      intro e _
      rw [shown, hcleared, Bool.false_or, JsMap.has, JsMap.get_deleteAll]
      by_cases hremoved : e.1 ∈ s.removed.items
      · have hhas : s.removed.has e.1 = true := JsSet.has_iff.2 hremoved
        rw [if_pos hremoved, hhas]
        rfl
      · have hhas : s.removed.has e.1 = false :=
          Bool.eq_false_iff.2 fun h => hremoved (JsSet.has_iff.1 h)
        rw [if_neg hremoved, hhas]
        rfl
    rw [hkept, List.map_congr_left fun e _ => hvalues e, List.filter_congr hshown]

end StagedMap

end StagedMaps
