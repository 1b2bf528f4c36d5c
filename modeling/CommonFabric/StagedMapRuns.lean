import CommonFabric.Checked
import CommonFabric.StagedMap

/-!
# Runs on a staged map

A staged map and an ordinary one are given the same operations, iterators and their steps among
them. What each iterator has before it is the same list in both, and every operation keeps it so.
-/

namespace StagedMaps

open LiveMaps

variable {κ ν : Type} [DecidableEq κ]

inductive Op (κ ν : Type) where
  | has (key : κ)
  | get (key : κ)
  | set (key : κ) (value : ν)
  | delete (key : κ)
  | clear
  | size
  /-- A new iterator. -/
  | entries
  /-- A step of an iterator, by the order in which they were made. -/
  | next (i : Nat)

inductive Answer (κ ν : Type) where
  | nothing
  | flag (b : Bool)
  | value (v : Option ν)
  | count (n : Nat)
  | entry (e : Option (κ × ν))

/-- An ordinary map, with its iterators. -/
structure Plain (κ ν : Type) where
  map : LiveMap κ ν
  iterators : List (Option Nat)

/-- A staged map, with its iterators. -/
structure Stage (κ ν : Type) where
  map : StagedMap κ ν
  iterators : List Position

def Plain.step (p : Plain κ ν) : Op κ ν → Answer κ ν × Plain κ ν
  | .has key => (.flag (p.map.has key), p)
  | .get key => (.value (p.map.get key), p)
  | .set key value => (.nothing, { p with map := p.map.set key value })
  | .delete key => (.flag (p.map.has key), { p with map := p.map.delete key })
  | .clear => (.nothing, { p with map := p.map.clear })
  | .size => (.count p.map.size, p)
  | .entries => (.nothing, { p with iterators := p.iterators ++ [some 0] })
  | .next i =>
    match p.iterators[i]? with
    | some place =>
      match place.bind p.map.next with
      | some c => (.entry (some (c.key, c.value)),
          { p with iterators := p.iterators.set i (some (c.place + 1)) })
      | none => (.entry none, { p with iterators := p.iterators.set i none })
    | none => (.entry none, p)

def Stage.step (s : Stage κ ν) : Op κ ν → Answer κ ν × Stage κ ν
  | .has key => (.flag (s.map.has key), s)
  | .get key => (.value (s.map.get key).1, { s with map := (s.map.get key).2 })
  | .set key value => (.nothing, { s with map := s.map.set key value })
  | .delete key => (.flag (s.map.delete key).1, { s with map := (s.map.delete key).2 })
  | .clear => (.nothing, { s with map := s.map.clear })
  | .size => (.count s.map.size, s)
  | .entries => (.nothing, { s with iterators := s.iterators ++ [.base 0] })
  | .next i =>
    match s.iterators[i]? with
    | some pos => (.entry (s.map.next pos).1,
        ⟨(s.map.next pos).2.2, s.iterators.set i (s.map.next pos).2.1⟩)
    | none => (.entry none, s)

/-- The answers to a list of operations, and what they leave. -/
def Plain.run (p : Plain κ ν) : List (Op κ ν) → List (Answer κ ν) × Plain κ ν
  | [] => ([], p)
  | op :: ops => ((p.step op).1 :: ((p.step op).2.run ops).1, ((p.step op).2.run ops).2)

def Stage.run (s : Stage κ ν) : List (Op κ ν) → List (Answer κ ν) × Stage κ ν
  | [] => ([], s)
  | op :: ops => ((s.step op).1 :: ((s.step op).2.run ops).1, ((s.step op).2.run ops).2)

/-- A map copied from another. -/
def Plain.ofBase (base : JsMap κ ν) : Plain κ ν := ⟨LiveMap.ofMap base, []⟩

def Stage.ofBase (base : JsMap κ ν) (copy : Option (ν → ν)) : Stage κ ν :=
  ⟨StagedMap.ofBase base copy, []⟩

section

variable [Setoid ν]

/-- The same key, with values that are the same up to copying. -/
def SameEntry (e f : κ × ν) : Prop := e.1 = f.1 ∧ e.2 ≈ f.2

def Answer.Same : Answer κ ν → Answer κ ν → Prop
  | .nothing, .nothing => True
  | .flag b, .flag c => b = c
  | .value v, .value w => Option.Rel (· ≈ ·) v w
  | .count n, .count m => n = m
  | .entry e, .entry f => Option.Rel SameEntry e f
  | _, _ => False

/-- An iterator of a staged map has before it what one of the ordinary map has. -/
def Follows (s : StagedMap κ ν) (m : LiveMap κ ν) (pos : Position) (place : Option Nat) : Prop :=
  s.Reached pos ∧ Option.Rel (fun l i => i ≤ m.length ∧ List.Forall₂ SameEntry l (m.rest i))
    (s.rest pos) place

omit [DecidableEq κ] in
theorem sameEntry_keys {l l' : List (κ × ν)} (h : List.Forall₂ SameEntry l l') :
    l.map (·.1) = l'.map (·.1) := by
  induction h with
  | nil => rfl
  | cons hfirst _ ih => rw [List.map_cons, List.map_cons, hfirst.1, ih]

theorem sameEntry_putEntry {l l' : List (κ × ν)} (h : List.Forall₂ SameEntry l l') (key : κ)
    {v w : ν} (hv : v ≈ w) : List.Forall₂ SameEntry (putEntry key v l) (putEntry key w l') := by
  induction h with
  | nil => exact List.Forall₂.nil
  | @cons e f _ _ hfirst _ ih =>
    refine List.Forall₂.cons ?_ ih
    dsimp only
    rw [hfirst.1]
    split
    · exact ⟨rfl, hv⟩
    · exact hfirst

/-- A copy in the place of a value. -/
theorem sameEntry_copied {l l' : List (κ × ν)} (h : List.Forall₂ SameEntry l l') {key : κ}
    {v w : ν} (hv : w ≈ v) (hkey : ∀ e ∈ l, e.1 = key → e.2 = v) :
    List.Forall₂ SameEntry (putEntry key w l) l' := by
  induction h with
  | nil => exact List.Forall₂.nil
  | @cons e f _ _ hfirst _ ih =>
    obtain ⟨he, hrest⟩ := List.forall_mem_cons.1 hkey
    refine List.Forall₂.cons ?_ (ih hrest)
    dsimp only
    by_cases hk : e.1 = key
    · rw [if_pos hk]
      have hvalue := hfirst.2
      rw [he hk] at hvalue
      exact ⟨hk.symm.trans hfirst.1, Setoid.trans hv hvalue⟩
    · rw [if_neg hk]
      exact hfirst

theorem sameEntry_dropKey {l l' : List (κ × ν)} (h : List.Forall₂ SameEntry l l') (key : κ) :
    List.Forall₂ SameEntry (dropKey key l) (dropKey key l') := by
  induction h with
  | nil => exact List.Forall₂.nil
  | @cons e f l l' hfirst _ ih =>
    rw [dropKey, dropKey, List.filter_cons, List.filter_cons, ← dropKey, ← dropKey, hfirst.1]
    split
    · exact List.Forall₂.cons hfirst ih
    · exact ih

variable {s : StagedMap κ ν} {m : LiveMap κ ν}

theorem follows_entries (h : Follows s m (.base 0) (some 0)) :
    List.Forall₂ SameEntry s.entries m.entries := by
  obtain ⟨-, hrel⟩ := h
  rw [StagedMap.rest_start] at hrel
  cases hrel with
  | some hrel =>
    have hentries := hrel.2
    rw [LiveMap.rest_zero] at hentries
    exact hentries

theorem has_eq (h : Follows s m (.base 0) (some 0)) (key : κ) : s.has key = m.has key := by
  have hkeys := sameEntry_keys (follows_entries h)
  rw [Bool.eq_iff_iff, LiveMap.has_iff_entries, ← hkeys]
  constructor
  · exact StagedMap.mem_keys_entries
  · intro hmem
    by_contra hnot
    exact StagedMap.not_mem_keys s.rest_start (Bool.eq_false_iff.2 hnot) hmem

/-- The value of a key is that of the ordinary map. -/
theorem value_same (h : Follows s m (.base 0) (some 0)) (key : κ) :
    Option.Rel (· ≈ ·) (s.value key) (m.get key) := by
  have hhas := has_eq h key
  rw [StagedMap.has_eq_value, LiveMap.has_eq_isSome] at hhas
  cases hv : s.value key with
  | none =>
    rw [hv] at hhas
    cases hget : m.get key with
    | none => exact Option.Rel.none
    | some w =>
      rw [hget] at hhas
      cases hhas
  | some v =>
    have hmem : key ∈ s.entries.map (·.1) := by
      apply StagedMap.mem_keys_entries
      rw [StagedMap.has_eq_value, hv]
      rfl
    obtain ⟨e, he, rfl⟩ := List.mem_map.1 hmem
    have hvalue := StagedMap.value_of_mem_rest s.rest_start he
    rw [hv] at hvalue
    cases hvalue
    obtain ⟨f, hf, hsame⟩ := ListPairs.exists_mem (follows_entries h) he
    have hget : m.get e.1 = some f.2 := LiveMap.get_eq_some_iff.2 (by
      rw [hsame.1]
      exact hf)
    rw [hget]
    exact Option.Rel.some hsame.2

variable {pos : Position} {place : Option Nat}

section

variable (h : Follows s m pos place)
include h

/-- What an operation does to the list before an iterator, it does to the ordinary one's. -/
theorem Follows.map {s' : StagedMap κ ν} {m' : LiveMap κ ν} {f g : List (κ × ν) → List (κ × ν)}
    (hreached : s'.Reached pos) (hs : s'.rest pos = (s.rest pos).map f)
    (hlength : m.length ≤ m'.length) (hm : ∀ i ≤ m.length, m'.rest i = g (m.rest i))
    (hfg : ∀ l l', s.rest pos = some l → List.Forall₂ SameEntry l l' →
      List.Forall₂ SameEntry (f l) (g l')) : Follows s' m' pos place := by
  obtain ⟨-, hrel⟩ := h
  refine ⟨hreached, ?_⟩
  rw [hs]
  cases hl : s.rest pos with
  | none =>
    rw [hl] at hrel
    cases hrel
    exact Option.Rel.none
  | some l =>
    rw [hl] at hrel
    cases hrel with
    | some hrel =>
      refine Option.Rel.some ⟨Nat.le_trans hrel.1 hlength, ?_⟩
      rw [hm _ hrel.1]
      exact hfg l _ hl hrel.2

theorem Follows.set {key : κ} (hhas : s.has key = m.has key) {v w : ν} (hv : v ≈ w) :
    Follows (s.set key v) (m.set key w) pos place := by
  by_cases hs : s.has key = true
  · apply h.map (g := putEntry key w) (StagedMap.reached_set h.1 key v)
      (StagedMap.rest_set hs v h.1) (m.length_le_set key w) (fun i _ => LiveMap.rest_set (hhas ▸ hs) w i)
    intro l l' _ hsame
    exact sameEntry_putEntry hsame key hv
  · have hs : s.has key = false := Bool.eq_false_iff.2 hs
    have hm : ¬m.has key = true := by
      rw [← hhas, hs]
      exact Bool.false_ne_true
    apply h.map (g := (· ++ [(key, w)])) (StagedMap.reached_set h.1 key v)
      (StagedMap.rest_set_new hs v h.1) (m.length_le_set key w) (fun i hi => LiveMap.rest_set_new hm w hi)
    intro l l' _ hsame
    exact List.rel_append hsame (List.Forall₂.cons ⟨rfl, hv⟩ List.Forall₂.nil)

theorem Follows.delete (key : κ) : Follows (s.delete key).2 (m.delete key) pos place := by
  have hlength : m.length ≤ (m.delete key).length := Nat.le_refl _
  apply h.map (g := dropKey key) (StagedMap.reached_delete h.1 key)
    (StagedMap.rest_delete key pos) hlength (fun i _ => m.rest_delete key i)
  intro l l' _ hsame
  exact sameEntry_dropKey hsame key

theorem Follows.clear : Follows s.clear m.clear pos place := by
  have hlength : m.length ≤ m.clear.length := Nat.le_refl _
  apply h.map (g := fun _ => []) (StagedMap.reached_clear h.1) (s.rest_clear pos) hlength
    (fun i _ => m.rest_clear i)
  intro l l' _ _
  exact List.Forall₂.nil

/-- Copying a value that is read changes nothing before an iterator. -/
theorem Follows.copied {key : κ} {v w : ν} (hv : s.value key = some v) (hw : w ≈ v) :
    Follows (s.set key w) m pos place := by
  have hhas : s.has key = true := by
    rw [StagedMap.has_eq_value, hv]
    rfl
  apply h.map (g := id) (StagedMap.reached_set h.1 key w) (StagedMap.rest_set hhas w h.1)
    (Nat.le_refl _) (fun _ _ => rfl)
  intro l l' hl hsame
  apply sameEntry_copied hsame hw
  rintro e he rfl
  have hvalue := StagedMap.value_of_mem_rest hl he
  rw [hv] at hvalue
  cases hvalue
  rfl

end

/-- A staged map over a base stands for an ordinary map. -/
structure Simulates (base : JsMap κ ν) (s : Stage κ ν) (p : Plain κ ν) : Prop where
  base : s.map.base = base
  copy : ∀ copy, s.map.copy = some copy → ∀ v, copy v ≈ v
  size : s.map.size = p.map.size
  entries : Follows s.map p.map (.base 0) (some 0)
  iterators : List.Forall₂ (Follows s.map p.map) s.iterators p.iterators

variable {base : JsMap κ ν} {st : Stage κ ν} {p : Plain κ ν}

/-- A key is read, and its value copied perhaps. -/
theorem Simulates.copied (h : Simulates base st p) {key : κ} {v w : ν}
    (hv : st.map.value key = some v) (hw : w ≈ v) :
    Simulates base { st with map := st.map.set key w } p := by
  have hhas : st.map.has key = true := by
    rw [StagedMap.has_eq_value, hv]
    rfl
  refine ⟨h.base, h.copy, ?_, h.entries.copied hv hw, ?_⟩
  · rw [← h.size, StagedMap.set]
    dsimp only
    rw [if_pos hhas]
  · exact h.iterators.imp fun _ _ hit => hit.copied hv hw

theorem step_get (h : Simulates base st p) (key : κ) :
    Answer.Same (st.step (.get key)).1 (p.step (.get key)).1 ∧
      Simulates base (st.step (.get key)).2 (p.step (.get key)).2 := by
  rw [Stage.step, Plain.step]
  have hvalue := value_same h.entries key
  obtain hget | ⟨copy, v, hcopy, hv, hget⟩ := st.map.get_cases key
  · rw [hget]
    exact ⟨hvalue, h⟩
  · have hhas : st.map.has key = true := by
      rw [StagedMap.has_eq_value, hv]
      rfl
    rw [hget, ← StagedMap.set_of_has hhas]
    rw [hv] at hvalue
    refine ⟨?_, h.copied hv (h.copy copy hcopy v)⟩
    cases hw : p.map.get key with
    | none =>
      rw [hw] at hvalue
      cases hvalue
    | some w =>
      rw [hw] at hvalue
      cases hvalue with
      | some hvalue => exact Option.Rel.some (Setoid.trans (h.copy copy hcopy v) hvalue)

theorem step_delete (h : Simulates base st p) (key : κ) :
    Answer.Same (st.step (.delete key)).1 (p.step (.delete key)).1 ∧
      Simulates base (st.step (.delete key)).2 (p.step (.delete key)).2 := by
  rw [Stage.step, Plain.step]
  have hhas := has_eq h.entries key
  have hfollows := h.entries.delete key
  have hiterators := h.iterators.imp fun _ _ hit => hit.delete key
  have hsize := p.map.size_delete key
  cases hs : st.map.has key with
  | false =>
    have hstate : st.map.delete key = (false, st.map) := by rw [StagedMap.delete, if_pos hs]
    rw [← hhas, hs, if_neg Bool.false_ne_true] at hsize
    refine ⟨?_, ?_, ?_, ?_, hfollows, hiterators⟩
    · rw [hstate, ← hhas, hs]
      rfl
    · rw [hstate]
      exact h.base
    · rw [hstate]
      exact h.copy
    · rw [hstate]
      dsimp only
      rw [hsize, h.size]
  | true =>
    have hnot : ¬st.map.has key = false := by
      rw [hs]
      exact Bool.noConfusion
    rw [← hhas, hs, if_pos rfl] at hsize
    refine ⟨?_, ?_, ?_, ?_, hfollows, hiterators⟩
    · rw [StagedMap.delete, if_neg hnot, ← hhas, hs]
      rfl
    · rw [StagedMap.delete, if_neg hnot]
      exact h.base
    · rw [StagedMap.delete, if_neg hnot]
      exact h.copy
    · rw [StagedMap.delete, if_neg hnot]
      dsimp only
      rw [hsize, h.size]

theorem forall₂_set {α β : Type} {R : α → β → Prop} {as : List α} {bs : List β}
    (h : List.Forall₂ R as bs) (i : Nat) {a : α} {b : β} (hab : R a b) :
    List.Forall₂ R (as.set i a) (bs.set i b) := by
  induction h generalizing i with
  | nil => exact List.Forall₂.nil
  | cons hfirst hrest ih =>
    cases i with
    | zero => exact List.Forall₂.cons hab hrest
    | succ i => exact List.Forall₂.cons hfirst (ih i)

/-- An iterator takes a step. -/
theorem step_next (h : Simulates base st p) (i : Nat) :
    Answer.Same (st.step (.next i)).1 (p.step (.next i)).1 ∧
      Simulates base (st.step (.next i)).2 (p.step (.next i)).2 := by
  rw [Stage.step, Plain.step]
  have hlength := h.iterators.length_eq
  cases hpos : st.iterators[i]? with
  | none =>
    have hplace : p.iterators[i]? = none := by
      rw [List.getElem?_eq_none_iff] at hpos ⊢
      omega
    rw [hplace]
    exact ⟨Option.Rel.none, h⟩
  | some pos =>
    obtain ⟨hi, rfl⟩ := List.getElem?_eq_some_iff.1 hpos
    have hi' : i < p.iterators.length := by omega
    have hit := h.iterators.get hi hi'
    rw [List.get_eq_getElem, List.get_eq_getElem] at hit
    rw [List.getElem?_eq_getElem hi']
    clear hpos
    generalize st.iterators[i] = pos at hit
    generalize p.iterators[i] = place at hit
    dsimp only
    have hreached : st.map.Reached .done := trivial
    have hdone : Follows st.map p.map .done none := ⟨hreached, Option.Rel.none⟩
    obtain ⟨hstart, hrel⟩ := hit
    cases hl : st.map.rest pos with
    | none =>
      rw [hl] at hrel
      cases hrel
      have hnext : st.map.next pos = (none, .done, st.map) := by
        cases pos with
        | base j => cases hl
        | changes j => cases hl
        | done => rfl
      rw [hnext]
      exact ⟨Option.Rel.none, { h with iterators := forall₂_set h.iterators i hdone }⟩
    | some l =>
      rw [hl] at hrel
      cases hrel with
      | @some _ place hrel =>
        obtain ⟨hplace, hsame⟩ := hrel
        rw [Option.bind_some]
        cases l with
        | nil =>
          rw [StagedMap.next_nil hl]
          have hnext : p.map.next place = none := by
            cases hnext : p.map.next place with
            | none => rfl
            | some c =>
              rw [LiveMap.rest_of_next hnext] at hsame
              cases hsame
          rw [hnext]
          exact ⟨Option.Rel.none, { h with iterators := forall₂_set h.iterators i hdone }⟩
        | cons e l =>
          cases hnext : p.map.next place with
          | none =>
            rw [LiveMap.rest_of_next_none hnext] at hsame
            cases hsame
          | some c =>
            rw [LiveMap.rest_of_next hnext] at hsame
            obtain ⟨hfirst, hsame⟩ := List.forall₂_cons.1 hsame
            obtain ⟨pos', hreached, hrest, hstep⟩ := StagedMap.next_cons hl
            have hfollows : Follows st.map p.map pos' (some (c.place + 1)) := by
              refine ⟨hreached, ?_⟩
              rw [hrest]
              exact Option.Rel.some ⟨LiveMap.place_lt_of_nextWhere hnext, hsame⟩
            have hmoved : Simulates base ⟨st.map, st.iterators.set i pos'⟩
                ⟨p.map, p.iterators.set i (some (c.place + 1))⟩ :=
              { h with iterators := forall₂_set h.iterators i hfollows }
            obtain hstep | ⟨copy, hcopy, hstep⟩ := hstep
            · rw [hstep]
              exact ⟨Option.Rel.some hfirst, hmoved⟩
            · rw [hstep]
              have hsame := h.copy copy hcopy e.2
              have hvalue := StagedMap.value_of_mem_rest hl List.mem_cons_self
              exact ⟨Option.Rel.some ⟨hfirst.1, Setoid.trans hsame hfirst.2⟩,
                hmoved.copied hvalue hsame⟩

theorem step_simulates (h : Simulates base st p) (op : Op κ ν) :
    Answer.Same (st.step op).1 (p.step op).1 ∧ Simulates base (st.step op).2 (p.step op).2 := by
  cases op with
  | has key => exact ⟨has_eq h.entries key, h⟩
  | get key => exact step_get h key
  | set key v =>
    have hhas := has_eq h.entries key
    refine ⟨trivial, h.base, h.copy, ?_, h.entries.set hhas (Setoid.refl v), ?_⟩
    · rw [Stage.step, Plain.step]
      dsimp only
      rw [LiveMap.size_set, StagedMap.set]
      dsimp only
      rw [hhas, h.size]
    · exact h.iterators.imp fun _ _ hit => hit.set hhas (Setoid.refl v)
  | delete key => exact step_delete h key
  | clear =>
    exact ⟨trivial, h.base, h.copy, rfl, h.entries.clear, h.iterators.imp fun _ _ hit => hit.clear⟩
  | size => exact ⟨h.size, h⟩
  | entries =>
    refine ⟨trivial, { h with iterators := ?_ }⟩
    exact List.rel_append h.iterators (List.Forall₂.cons h.entries List.Forall₂.nil)
  | next i => exact step_next h i

theorem run_simulates (h : Simulates base st p) (ops : List (Op κ ν)) :
    List.Forall₂ Answer.Same (st.run ops).1 (p.run ops).1 ∧
      Simulates base (st.run ops).2 (p.run ops).2 := by
  induction ops generalizing st p with
  | nil => exact ⟨List.Forall₂.nil, h⟩
  | cons op ops ih =>
    obtain ⟨hanswer, hstep⟩ := step_simulates h op
    obtain ⟨hanswers, hrun⟩ := ih hstep
    exact ⟨List.Forall₂.cons hanswer hanswers, hrun⟩

omit [DecidableEq κ] in
theorem sameEntry_refl (l : List (κ × ν)) : List.Forall₂ SameEntry l l := by
  induction l with
  | nil => exact List.Forall₂.nil
  | cons e l ih => exact List.Forall₂.cons ⟨rfl, Setoid.refl e.2⟩ ih

theorem simulates_ofBase (base : JsMap κ ν) {copy : Option (ν → ν)}
    (hcopy : ∀ f, copy = some f → ∀ v, f v ≈ v) :
    Simulates base (Stage.ofBase base copy) (Plain.ofBase base) := by
  refine ⟨rfl, hcopy, ?_, ⟨trivial, ?_⟩, List.Forall₂.nil⟩
  · exact (LiveMap.size_ofMap base).symm
  · rw [StagedMap.rest_start, Stage.ofBase]
    dsimp only
    rw [StagedMap.entries_ofBase]
    refine Option.Rel.some ⟨Nat.zero_le _, ?_⟩
    rw [LiveMap.rest_zero, Plain.ofBase, LiveMap.entries_ofMap]
    exact sameEntry_refl base.entries

/-- Every operation on a staged map answers as it does on an ordinary map copied from the base; the
base stays as it was, and is left with the entries of the ordinary map, in their order. -/
theorem run_refines (base : JsMap κ ν) {copy : Option (ν → ν)}
    (hcopy : ∀ f, copy = some f → ∀ v, f v ≈ v) (ops : List (Op κ ν)) :
    List.Forall₂ Answer.Same ((Stage.ofBase base copy).run ops).1 ((Plain.ofBase base).run ops).1 ∧
      ((Stage.ofBase base copy).run ops).2.map.base = base ∧
      List.Forall₂ SameEntry ((Stage.ofBase base copy).run ops).2.map.commit.entries
        ((Plain.ofBase base).run ops).2.map.entries := by
  obtain ⟨hanswers, hrun⟩ := run_simulates (simulates_ofBase base hcopy) ops
  refine ⟨hanswers, hrun.base, ?_⟩
  rw [StagedMap.entries_commit]
  exact follows_entries hrun.entries

end

/-- Boxes, which are the same when they hold the same. -/
def sameContents : Setoid (Nat × Nat) where
  r a b := a.2 = b.2
  iseqv := ⟨fun _ => rfl, Eq.symm, Eq.trans⟩

theorem run_refines_boxes :
    let ops : List (Op Nat (Nat × Nat)) :=
      [.entries, .next 0, .get 2, .delete 1, .set 3 (0, 9), .next 0, .clear, .next 0, .size]
    let base : JsMap Nat (Nat × Nat) := ⟨[(1, (0, 7)), (2, (0, 8))], by decide⟩
    let copy : Option (Nat × Nat → Nat × Nat) := some fun box => (box.1 + 1, box.2)
    List.Forall₂ (@Answer.Same _ _ sameContents) ((Stage.ofBase base copy).run ops).1
        ((Plain.ofBase base).run ops).1 ∧
      ((Stage.ofBase base copy).run ops).2.map.base = base ∧
      List.Forall₂ (@SameEntry _ _ sameContents)
        ((Stage.ofBase base copy).run ops).2.map.commit.entries
        ((Plain.ofBase base).run ops).2.map.entries := by
  intro ops base copy
  apply @run_refines Nat (Nat × Nat) _ sameContents base copy
  intro f hf v
  rw [← Option.some_inj.1 hf]
  rfl

end StagedMaps
