import CommonFabric.Checked
import CommonFabric.JsSet
import Mathlib.Algebra.BigOperators.Group.List.Basic
import Mathlib.Algebra.GroupWithZero.Nat
import Mathlib.Logic.Relation

/-!
A worklist that follows what each element it loads depends on, until nothing is
left to follow. Loading may fail, which ends the walk. Beside it stands the search of
a tree with a stack. Nothing here depends on what the elements are.
-/

namespace Worklist

variable {α ε : Type} [DecidableEq α]

/-- The elements of `bound` not seen yet. -/
def unseen (bound seen : List α) : Nat := (bound.filter (· ∉ seen)).length

theorem unseen_cons {bound seen : List α} {x : α} (hb : x ∈ bound) (hs : x ∉ seen) :
    unseen bound (x :: seen) < unseen bound seen := by
  have hsub : bound.filter (· ∉ x :: seen) = (bound.filter (· ∉ seen)).filter (· ≠ x) := by
    rw [List.filter_filter]
    congr 1
    funext y
    by_cases hyx : y = x <;> by_cases hys : y ∈ seen <;> simp_all
  rw [unseen, unseen, hsub]
  apply List.length_filter_lt_length_iff_exists.2
  exact ⟨x, List.mem_filter.2 ⟨hb, by simpa using hs⟩, by simp⟩

example : unseen [1, 2] [1] = 1 := by decide +kernel

/-- The walk over a stack of pending elements. Every element that loads is in
`bound`, which is what ends the walk; `outside` is the failure of one that is not. -/
def walk (load : α → Except ε (List α)) (bound : List α) (outside : ε) :
    List α → List α → Except ε (List α)
  | seen, [] => .ok seen
  | seen, x :: pending =>
    if _hs : x ∈ seen then walk load bound outside seen pending
    else match load x with
      | .error e => .error e
      | .ok deps =>
        if _hb : x ∈ bound then walk load bound outside (x :: seen) (deps.reverse ++ pending)
        else .error outside
termination_by seen pending => (unseen bound seen, pending.length)
decreasing_by
  · exact Prod.Lex.right _ (by simp)
  · exact Prod.Lex.left _ _ (unseen_cons _hb _hs)

variable {load : α → Except ε (List α)} {bound : List α} {outside : ε}

section
variable {α β : Type} {size : α → Nat} {visit : α → Except β (List α)}

/-- The search of a stack of pending elements, of which the last pushed is visited first.
A visit finds what is searched for, or pushes elements that are smaller together than
the one it is of. -/
def search (size : α → Nat) (visit : α → Except β (List α))
    (smaller : ∀ x pushed, visit x = .ok pushed → (pushed.map size).sum < size x) :
    List α → Option β
  | [] => none
  | x :: pending => match _hvisit : visit x with
    | .error found => some found
    | .ok pushed => search size visit smaller (pushed.reverse ++ pending)
termination_by pending => (pending.map size).sum
decreasing_by
  have := smaller x pushed _hvisit
  simp
  omega

/-- A visit of `x` pushes `y`. -/
def Pushes (visit : α → Except β (List α)) (x y : α) : Prop :=
  ∃ pushed, visit x = .ok pushed ∧ y ∈ pushed

/-- What is visited once `x` is on the stack, unless something is found before. -/
abbrev Visits (visit : α → Except β (List α)) : α → α → Prop := Relation.ReflTransGen (Pushes visit)

theorem ok_of_search_none
    {smaller : ∀ x pushed, visit x = .ok pushed → (pushed.map size).sum < size x}
    {pending : List α} (h : search size visit smaller pending = none) {x y : α} (hx : x ∈ pending)
    (hy : Visits visit x y) : ∃ pushed, visit y = .ok pushed := by
  induction pending using search.induct size visit smaller generalizing x with
  | case1 => cases hx
  | case2 head pending found hvisit =>
    rw [search] at h
    split at h
    · cases h
    · rename_i hvisit'
      rw [hvisit] at hvisit'
      cases hvisit'
  | case3 head pending pushed hvisit ih =>
    rw [search] at h
    split at h
    · cases h
    · rename_i pushed' hvisit'
      rw [hvisit] at hvisit'
      cases hvisit'
      rcases List.mem_cons.1 hx with rfl | hx
      · rcases hy.cases_head with rfl | ⟨next, ⟨pushed', hvisit', hnext⟩, hy⟩
        · exact ⟨pushed, hvisit⟩
        · rw [hvisit] at hvisit'
          cases hvisit'
          exact ih h (by simp [hnext]) hy
      · exact ih h (by simp [hx]) hy

theorem found_of_search_some
    {smaller : ∀ x pushed, visit x = .ok pushed → (pushed.map size).sum < size x}
    {pending : List α} {found : β} (h : search size visit smaller pending = some found) :
    ∃ x ∈ pending, ∃ y, Visits visit x y ∧ visit y = .error found := by
  induction pending using search.induct size visit smaller with
  | case1 => simp [search] at h
  | case2 head pending found' hvisit =>
    rw [search] at h
    split at h
    · rename_i hvisit'
      cases h
      exact ⟨head, List.mem_cons_self, head, .refl, hvisit'⟩
    · rename_i hvisit'
      rw [hvisit] at hvisit'
      cases hvisit'
  | case3 head pending pushed hvisit ih =>
    rw [search] at h
    split at h
    · rename_i hvisit'
      rw [hvisit] at hvisit'
      cases hvisit'
    · rename_i pushed' hvisit'
      rw [hvisit] at hvisit'
      cases hvisit'
      obtain ⟨x, hx, y, hy, hfound⟩ := ih h
      rcases List.mem_append.1 hx with hx | hx
      · exact ⟨head, List.mem_cons_self, y,
          .head ⟨pushed, hvisit, List.mem_reverse.1 hx⟩ hy, hfound⟩
      · exact ⟨x, List.mem_cons_of_mem _ hx, y, hy, hfound⟩

/-- The search finds something if and only if some visit does. -/
theorem search_isSome_iff
    {smaller : ∀ x pushed, visit x = .ok pushed → (pushed.map size).sum < size x}
    {pending : List α} : (search size visit smaller pending).isSome ↔
      ∃ x ∈ pending, ∃ y, Visits visit x y ∧ ∃ found, visit y = .error found := by
  constructor
  · intro h
    obtain ⟨found, hfound⟩ := Option.isSome_iff_exists.1 h
    obtain ⟨x, hx, y, hy, hvisit⟩ := found_of_search_some hfound
    exact ⟨x, hx, y, hy, found, hvisit⟩
  · rintro ⟨x, hx, y, hy, found, hvisit⟩
    by_contra hnone
    obtain ⟨pushed, hpushed⟩ := ok_of_search_none (Option.not_isSome_iff_eq_none.1 hnone) hx hy
    rw [hvisit] at hpushed
    cases hpushed
end

section
variable {α : Type} [DecidableEq α] {next : α → List α} {enters : α → Bool} {bound : List α}

/-- A neighbour of the element at hand is marked, and pending, unless it was. -/
def mark (enters : α → Bool) (s : JsSet α × List α) (y : α) : JsSet α × List α :=
  if y ∈ s.1 then s else if enters y then (s.1.add y, y :: s.2) else s

theorem unseen_add (hbound : ∀ y, enters y = true → y ∈ bound) (s : JsSet α × List α) (y : α) :
    unseen bound (mark enters s y).1.items < unseen bound s.1.items ∨ mark enters s y = s := by
  rw [mark]
  split
  case isTrue => exact .inr rfl
  case isFalse hy =>
    split
    case isFalse => exact .inr rfl
    case isTrue henters =>
      left
      have hitems : (s.1.add y).items = s.1.items ++ [y] := by rw [JsSet.add, dif_neg hy]
      have hsame : unseen bound (s.1.items ++ [y]) = unseen bound (y :: s.1.items) := by
        simp [unseen, or_comm]
      rw [hitems, hsame]
      exact unseen_cons (hbound y henters) hy

theorem unseen_foldl_mark (hbound : ∀ y, enters y = true → y ∈ bound) (ys : List α)
    (s : JsSet α × List α) :
    unseen bound (ys.foldl (mark enters) s).1.items < unseen bound s.1.items ∨
      ys.foldl (mark enters) s = s := by
  induction ys generalizing s with
  | nil => exact .inr rfl
  | cons y ys ih =>
    rw [List.foldl_cons]
    rcases unseen_add hbound s y with hlt | heq
    · left
      rcases ih (mark enters s y) with hlt' | heq'
      · exact Nat.lt_trans hlt' hlt
      · rw [heq']
        exact hlt
    · rw [heq]
      exact ih s

/-- The walk over a stack of pending elements, all of them marked. -/
def spread (next : α → List α) (enters : α → Bool) (bound : List α)
    (hbound : ∀ y, enters y = true → y ∈ bound) (seen : JsSet α) : List α → JsSet α
  | [] => seen
  | x :: pending =>
    let marked := (next x).foldl (mark enters) (seen, pending)
    spread next enters bound hbound marked.1 marked.2
termination_by pending => (unseen bound seen.items, pending.length)
decreasing_by
  rcases unseen_foldl_mark hbound (next x) (seen, pending) with hlt | heq
  · exact Prod.Lex.left _ _ hlt
  · rw [heq]
    exact Prod.Lex.right _ (by simp)

/-- A step from an element to a neighbour that is admitted. -/
def Admitted (next : α → List α) (enters : α → Bool) (x y : α) : Prop := y ∈ next x ∧ enters y = true

theorem mem_mark {s : JsSet α × List α} {x y : α} :
    x ∈ (mark enters s y).1 ↔ x ∈ s.1 ∨ x = y ∧ enters y = true := by
  rw [mark]
  split
  case isTrue hy =>
    constructor
    · exact .inl
    · rintro (hx | ⟨rfl, _⟩)
      · exact hx
      · exact hy
  case isFalse =>
    split
    case isTrue h => simp [h, or_comm]
    case isFalse h => simp [h]

theorem mem_foldl_mark {ys : List α} {s : JsSet α × List α} {x : α} :
    x ∈ (ys.foldl (mark enters) s).1 ↔ x ∈ s.1 ∨ x ∈ ys ∧ enters x = true := by
  induction ys generalizing s with
  | nil => simp
  | cons y ys ih =>
    rw [List.foldl_cons, ih, mem_mark, List.mem_cons]
    constructor
    · rintro ((hx | ⟨rfl, henters⟩) | ⟨hx, henters⟩)
      · exact .inl hx
      · exact .inr ⟨.inl rfl, henters⟩
      · exact .inr ⟨.inr hx, henters⟩
    · rintro (hx | ⟨rfl | hx, henters⟩)
      · exact .inl (.inl hx)
      · exact .inl (.inr ⟨rfl, henters⟩)
      · exact .inr ⟨hx, henters⟩

/-- What a step over the neighbours leaves pending: all that was, and what is newly marked. -/
theorem mem_foldl_mark_pending {ys : List α} {s : JsSet α × List α} {x : α} :
    x ∈ (ys.foldl (mark enters) s).2 ↔ x ∈ s.2 ∨ x ∈ (ys.foldl (mark enters) s).1 ∧ x ∉ s.1 := by
  induction ys generalizing s with
  | nil => simp
  | cons y ys ih =>
    rw [List.foldl_cons]
    by_cases hnew : y ∉ s.1 ∧ enters y = true
    · have hmark : mark enters s y = (s.1.add y, y :: s.2) := by
        rw [mark, if_neg hnew.1, if_pos hnew.2]
      have hy : y ∈ (ys.foldl (mark enters) (mark enters s y)).1 :=
        mem_foldl_mark.2 (.inl (mem_mark.2 (.inr ⟨rfl, hnew.2⟩)))
      rw [ih, hmark] at *
      by_cases hxy : x = y
      · subst hxy
        simp [hy, hnew.1]
      · simp [hxy]
    · have hmark : mark enters s y = s := by
        rw [mark]
        split
        · rfl
        · rename_i hy
          rw [if_neg fun henters => hnew ⟨hy, henters⟩]
      rw [hmark]
      exact ih

/-- A walk marks what can be reached by admitted steps, and nothing else. -/
theorem mem_spread {hbound : ∀ y, enters y = true → y ∈ bound} {seen : JsSet α} {pending : List α}
    (hpending : ∀ x ∈ pending, x ∈ seen)
    (hclosed : ∀ x ∈ seen, x ∉ pending → ∀ y, Admitted next enters x y → y ∈ seen) {y : α} :
    y ∈ spread next enters bound hbound seen pending ↔
      ∃ x ∈ seen, Relation.ReflTransGen (Admitted next enters) x y := by
  induction seen, pending using spread.induct next enters bound hbound with
  | case1 seen =>
    rw [spread]
    constructor
    · exact fun hy => ⟨y, hy, .refl⟩
    · rintro ⟨x, hx, hreach⟩
      induction hreach with
      | refl => exact hx
      | tail _ hstep ih => exact hclosed _ ih (by simp) _ hstep
  | case2 seen x pending marked ih =>
    rw [spread]
    have hmark : ∀ z, z ∈ marked.1 ↔ z ∈ seen ∨ z ∈ next x ∧ enters z = true :=
      fun z => mem_foldl_mark
    have hstack : ∀ z, z ∈ marked.2 ↔ z ∈ pending ∨ z ∈ marked.1 ∧ z ∉ seen :=
      fun z => mem_foldl_mark_pending
    have hx : x ∈ seen := hpending x List.mem_cons_self
    rw [ih]
    · constructor
      · rintro ⟨z, hz, hreach⟩
        rcases (hmark z).1 hz with hz | hz
        · exact ⟨z, hz, hreach⟩
        · exact ⟨x, hx, .head hz hreach⟩
      · rintro ⟨z, hz, hreach⟩
        exact ⟨z, (hmark z).2 (.inl hz), hreach⟩
    · intro z hz
      rcases (hstack z).1 hz with hz | hz
      · exact (hmark z).2 (.inl (hpending z (List.mem_cons_of_mem _ hz)))
      · exact hz.1
    · -- an element that is no longer pending was closed before, or is the one at hand
      intro z hz hnot w hw
      rw [hmark]
      by_cases hzx : z = x
      · subst hzx
        exact .inr hw
      · have hseen : z ∈ seen := by
          by_contra hnew
          exact hnot ((hstack z).2 (.inr ⟨hz, hnew⟩))
        have hold : z ∉ x :: pending := by
          intro hmem
          rcases List.mem_cons.1 hmem with h | h
          · exact hzx h
          · exact hnot ((hstack z).2 (.inl h))
        exact .inl (hclosed z hseen hold w hw)
end

end Worklist
