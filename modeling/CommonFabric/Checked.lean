import Mathlib.Data.List.Forall2
import Mathlib.Data.List.Nodup
import Mathlib.Logic.Basic

/-!
Computations that may fail, and how a success of one is taken apart; lists that are related element
by element; and what is seen of a run, as a list that grows at its end. Nothing here depends on what
is computed, on what the errors are or on what is seen.
-/

variable {ε α β : Type}

/-- A sequenced computation succeeds exactly when its parts do, one after the other. -/
theorem Except.bind_ok_iff {x : Except ε α} {f : α → Except ε β} {b : β} :
    (x >>= f) = .ok b ↔ ∃ a, x = .ok a ∧ f a = .ok b := by
  cases x with
  | error e => simp [bind, Except.bind]
  | ok a => simp [bind, Except.bind]

@[simp] theorem Except.ok_bind (a : α) (f : α → Except ε β) : (Except.ok a >>= f) = f a := rfl

@[simp] theorem Except.error_bind (e : ε) (f : α → Except ε β) :
    (Except.error e >>= f) = .error e := rfl

@[simp] theorem Except.pure_ok (a : α) : (pure a : Except ε α) = .ok a := rfl

/-- A check that returns nothing passes before the rest runs. -/
theorem Except.check_ok_iff {c : Except ε Unit} {x : Except ε β} {b : β} :
    (c >>= fun _ => x) = .ok b ↔ c = .ok () ∧ x = .ok b := by
  rw [Except.bind_ok_iff]
  constructor
  · rintro ⟨_, hc, hx⟩; exact ⟨hc, hx⟩
  · rintro ⟨hc, hx⟩; exact ⟨(), hc, hx⟩

theorem List.foldlM_cons_ok {f : α → β → Except ε α} {x : β} {xs : List β} {a c : α} :
    (x :: xs).foldlM f a = .ok c ↔ ∃ b, f a x = .ok b ∧ xs.foldlM f b = .ok c := by
  rw [List.foldlM_cons, Except.bind_ok_iff]

/-- A check made of every element passes for each. -/
theorem List.forM_ok_mem {f : α → Except ε PUnit} {xs : List α} {x : α}
    (h : xs.forM f = .ok ()) (hx : x ∈ xs) : f x = .ok () := by
  induction xs with
  | nil => cases hx
  | cons y xs ih =>
    change (f y >>= fun _ => xs.forM f) = _ at h
    obtain ⟨hy, h⟩ := Except.check_ok_iff.1 h
    rcases List.mem_cons.1 hx with rfl | hx
    · exact hy
    · exact ih h hx

/-- Each element of a list mapped without failure has an image, and it is in the result. -/
theorem List.mapM_ok_exists {f : α → Except ε β} {xs : List α} {ys : List β} {x : α}
    (h : xs.mapM f = .ok ys) (hx : x ∈ xs) : ∃ y ∈ ys, f x = .ok y := by
  induction xs generalizing ys with
  | nil => cases hx
  | cons x' xs ih =>
    rw [List.mapM_cons] at h
    obtain ⟨y', hy', h⟩ := Except.bind_ok_iff.1 h
    obtain ⟨ys', hys', h⟩ := Except.bind_ok_iff.1 h
    cases h
    rcases List.mem_cons.1 hx with rfl | hx
    · exact ⟨y', List.mem_cons_self, hy'⟩
    · obtain ⟨y, hy, hfx⟩ := ih hys' hx
      exact ⟨y, List.mem_cons_of_mem _ hy, hfx⟩

theorem List.mapM_ok_mem {f : α → Except ε β} {xs : List α} {ys : List β} {x : α} {y : β}
    (h : xs.mapM f = .ok ys) (hx : x ∈ xs) (hy : f x = .ok y) : y ∈ ys := by
  obtain ⟨y', hmem, hy'⟩ := List.mapM_ok_exists h hx
  rw [hy] at hy'
  cases hy'
  exact hmem

/-- Each element of the result is the image of one of the list. -/
theorem List.mapM_mem_ok {f : α → Except ε β} {xs : List α} {ys : List β} {y : β}
    (h : xs.mapM f = .ok ys) (hy : y ∈ ys) : ∃ x ∈ xs, f x = .ok y := by
  induction xs generalizing ys with
  | nil =>
    cases h
    cases hy
  | cons x xs ih =>
    rw [List.mapM_cons] at h
    obtain ⟨y', hy', h⟩ := Except.bind_ok_iff.1 h
    obtain ⟨ys', hys', h⟩ := Except.bind_ok_iff.1 h
    cases h
    cases List.mem_cons.1 hy with
    | inl heq => exact ⟨x, List.mem_cons_self, heq ▸ hy'⟩
    | inr hmem =>
      obtain ⟨z, hz, hfz⟩ := ih hys' hmem
      exact ⟨z, List.mem_cons_of_mem _ hz, hfz⟩

/-- A list is mapped without failure where each of its elements is. -/
theorem List.mapM_ok {f : α → Except ε β} {xs : List α} (h : ∀ x ∈ xs, ∃ y, f x = .ok y) :
    ∃ ys, xs.mapM f = .ok ys := by
  induction xs with
  | nil => exact ⟨[], rfl⟩
  | cons x xs ih =>
    obtain ⟨y, hy⟩ := h x List.mem_cons_self
    obtain ⟨ys, hys⟩ := ih fun z hz => h z (List.mem_cons_of_mem _ hz)
    exact ⟨y :: ys, by rw [List.mapM_cons, hy, Except.ok_bind, hys]; rfl⟩

/-- A check made of every element passes where it passes for each. -/
theorem List.forM_ok {f : α → Except ε PUnit} {xs : List α} (h : ∀ x ∈ xs, f x = .ok ()) :
    xs.forM f = .ok () := by
  induction xs with
  | nil => rfl
  | cons x xs ih =>
    change (f x >>= fun _ => xs.forM f) = _
    rw [h x List.mem_cons_self, Except.ok_bind, ih fun y hy => h y (List.mem_cons_of_mem _ hy)]

/-- What takes every element of a list back from what it was mapped to takes the list back. -/
theorem List.mapM_map_ok_iff {f : β → Except ε α} {g : α → β} {xs : List α} :
    (xs.map g).mapM f = .ok xs ↔ ∀ x ∈ xs, f (g x) = .ok x := by
  induction xs with
  | nil => simp
  | cons x xs ih =>
    rw [List.map_cons, List.mapM_cons, Except.bind_ok_iff, List.forall_mem_cons, ← ih]
    constructor
    · rintro ⟨y, hy, h⟩
      obtain ⟨ys, hys, h⟩ := Except.bind_ok_iff.1 h
      cases h
      exact ⟨hy, hys⟩
    · rintro ⟨hx, hxs⟩
      exact ⟨x, hx, by rw [hxs]; rfl⟩

namespace ListPairs

variable {α β : Type*} {R : α → β → Prop} {as : List α} {bs : List β}

theorem exists_at (h : List.Forall₂ R as bs) {i : Nat} {a : α} (ha : as[i]? = some a) :
    ∃ b, bs[i]? = some b ∧ R a b := by
  induction h generalizing i with
  | nil => cases ha
  | cons hfirst _ ih =>
    cases i with
    | zero => exact ⟨_, rfl, Option.some.inj ha ▸ hfirst⟩
    | succ i => exact ih ha

theorem exists_mem (h : List.Forall₂ R as bs) {a : α} (ha : a ∈ as) : ∃ b ∈ bs, R a b := by
  obtain ⟨i, hi⟩ := List.mem_iff_getElem?.1 ha
  obtain ⟨b, hb, hab⟩ := exists_at h hi
  exact ⟨b, List.mem_of_getElem? hb, hab⟩

theorem exists_mem_left (h : List.Forall₂ R as bs) {b : β} (hb : b ∈ bs) : ∃ a ∈ as, R a b :=
  exists_mem h.flip hb

theorem exists_at_left (h : List.Forall₂ R as bs) {i : Nat} {b : β} (hb : bs[i]? = some b) :
    ∃ a, as[i]? = some a ∧ R a b := exists_at h.flip hb

end ListPairs

namespace Trace

/-- An event of a longer trace is one of the trace or one of those added. -/
theorem split_append {trace events before after : List α} {event : α}
    (h : trace ++ events = before ++ event :: after) :
    (∃ rest, trace = before ++ event :: rest) ∨
      ∃ mid, before = trace ++ mid ∧ events = mid ++ event :: after := by
  rcases List.append_eq_append_iff.1 h with ⟨mid, hbefore, hevents⟩ | ⟨rest, htrace, hafter⟩
  · exact .inr ⟨mid, hbefore, hevents⟩
  · cases rest with
    | nil => exact .inr ⟨[], by simpa using htrace.symm, by simpa using hafter.symm⟩
    | cons x rest =>
      obtain rfl := List.head_eq_of_cons_eq hafter
      exact .inl ⟨rest, htrace⟩

/-- Every event has what it must have before it. -/
def Preceded (needs : List α → α → Prop) (trace : List α) : Prop :=
  ∀ before event after, trace = before ++ event :: after → needs before event

namespace Preceded

variable {needs : List α → α → Prop} {trace events : List α}

theorem nil : Preceded needs [] := fun before event after h => by simp at h

/-- Each event a step adds has what it needs, in the trace with the events added before it. -/
theorem append (h : Preceded needs trace)
    (hnew : ∀ mid event after, events = mid ++ event :: after → needs (trace ++ mid) event) :
    Preceded needs (trace ++ events) := by
  intro before event after hsplit
  rcases split_append hsplit with ⟨rest, htrace⟩ | ⟨mid, rfl, hevents⟩
  · exact h before event rest htrace
  · exact hnew mid event after hevents

/-- One event is added. -/
theorem snoc (h : Preceded needs trace) {event : α} (hnew : needs trace event) :
    Preceded needs (trace ++ [event]) := by
  refine h.append fun mid other after hsplit => ?_
  cases mid with
  | nil =>
    obtain rfl := List.head_eq_of_cons_eq hsplit
    simpa using hnew
  | cons x mid => simp at hsplit

end Preceded

end Trace
