import Mathlib.Data.List.TakeWhile

/-!
# Readers of text

A reader takes something from the front of a text and leaves what follows. Many readers look one
unit past what they take, to see that it stops there; such a reader takes the same before any text
that starts the same or with a unit that ends everything.
-/

namespace TextReaders

variable {α β γ : Type}

/-- A text that is over, or goes on with a unit that ends what stands before it. -/
def Ended (ends : α → Bool) (text : List α) : Prop := ∀ u ∈ text.head?, ends u = true

/-- A reader that takes units none of which ends, and looks at no more than one unit past them. -/
def Takes (ends : α → Bool) (read : List α → Option (β × List α)) : Prop :=
  ∀ text b rest, read text = some (b, rest) →
    ∃ used, text = used ++ rest ∧ (∀ u ∈ used, ends u = false) ∧
      ∀ more, Ended ends more ∨ more.head? = rest.head? → read (used ++ more) = some (b, more)

variable {ends : α → Bool}

theorem takes_done (b : β) : Takes ends fun text => some (b, text) := by
  intro text b' rest h
  cases h
  exact ⟨[], rfl, by simp, fun more _ => rfl⟩

theorem takes_refused : Takes ends fun _ => (none : Option (β × List α)) := by
  intro text b rest h
  cases h

/-- One reader after another. -/
theorem Takes.bind {first : List α → Option (β × List α)}
    {next : β → List α → Option (γ × List α)} (hfirst : Takes ends first)
    (hnext : ∀ b, Takes ends (next b)) :
    Takes ends fun text => (first text).bind fun r => next r.1 r.2 := by
  intro text c rest h
  obtain ⟨⟨b, middle⟩, hb, hc⟩ := Option.bind_eq_some_iff.1 h
  obtain ⟨used, rfl, hused, hread⟩ := hfirst text b middle hb
  obtain ⟨used', rfl, hused', hread'⟩ := hnext b middle c rest hc
  refine ⟨used ++ used', (List.append_assoc used used' rest).symm, ?_, ?_⟩
  · intro u hu
    cases List.mem_append.1 hu with
    | inl hu => exact hused u hu
    | inr hu => exact hused' u hu
  intro more hmore
  have hmiddle : Ended ends (used' ++ more) ∨ (used' ++ more).head? = (used' ++ rest).head? := by
    cases used' with
    | nil => exact hmore
    | cons u used' => exact .inr rfl
  dsimp only
  rw [List.append_assoc, hread _ hmiddle, Option.bind_some]
  exact hread' more hmore

theorem Takes.map {read : List α → Option (β × List α)} (h : Takes ends read) (f : β → γ) :
    Takes ends fun text => (read text).map fun r => (f r.1, r.2) := by
  have heq : (fun text => (read text).map fun r => (f r.1, r.2)) =
      fun text => (read text).bind fun r => some (f r.1, r.2) := by
    funext text
    cases read text <;> rfl
  rw [heq]
  exact h.bind fun b => takes_done (f b)

/-- What stands after a mark where a text starts with one, and the text itself where not. -/
def marked (mark : α → Prop) [DecidablePred mark] (first other : List α → Option (β × List α)) :
    List α → Option (β × List α)
  | [] => other []
  | u :: rest => if mark u then first rest else other (u :: rest)

section

variable {mark : α → Prop} [DecidablePred mark] {first other : List α → Option (β × List α)}

theorem marked_unmarked {text : List α} (h : ∀ u ∈ text.head?, ¬mark u) :
    marked mark first other text = other text := by
  cases text with
  | nil => rfl
  | cons u text => exact if_neg (h u rfl)

theorem Takes.marked (hfirst : Takes ends first) (hother : Takes ends other)
    (hmark : ∀ u, mark u → ends u = false) : Takes ends (marked mark first other) := by
  intro text b rest hread
  by_cases hstart : ∃ u ∈ text.head?, mark u
  · obtain ⟨u, hu, hm⟩ := hstart
    cases text with
    | nil => cases hu
    | cons v text =>
      cases hu
      rw [TextReaders.marked, if_pos hm] at hread
      obtain ⟨used, rfl, hused, hmore⟩ := hfirst text b rest hread
      refine ⟨u :: used, rfl, List.forall_mem_cons.2 ⟨hmark u hm, hused⟩, fun more hend => ?_⟩
      rw [List.cons_append, TextReaders.marked, if_pos hm]
      exact hmore more hend
  · have hunmarked : ∀ u ∈ text.head?, ¬mark u := fun u hu hm => hstart ⟨u, hu, hm⟩
    rw [marked_unmarked hunmarked] at hread
    obtain ⟨used, rfl, hused, hmore⟩ := hother text b rest hread
    refine ⟨used, rfl, hused, fun more hend => ?_⟩
    rw [marked_unmarked, hmore more hend]
    intro u hu hm
    cases used with
    | cons v used => exact hunmarked u hu hm
    | nil =>
      rw [List.nil_append] at hu
      cases hend with
      | inl hended => exact Bool.false_ne_true ((hmark u hm).symm.trans (hended u hu))
      | inr hsame => exact hunmarked u (hsame ▸ hu) hm

end

/-- The units of one kind that a text starts with, at least one. -/
theorem takes_while {p : α → Bool} (hp : ∀ u, p u = true → ends u = false) :
    Takes ends fun text =>
      if text.takeWhile p = [] then none else some (text.takeWhile p, text.dropWhile p) := by
  intro text b rest h
  dsimp only at h
  split at h
  · cases h
  rename_i hne
  obtain ⟨rfl, rfl⟩ := Prod.mk.inj (Option.some.inj h)
  have htaken : ∀ u ∈ text.takeWhile p, p u = true := fun u hu => List.mem_takeWhile_imp hu
  refine ⟨text.takeWhile p, List.takeWhile_append_dropWhile.symm, fun u hu => hp u (htaken u hu),
    fun more hmore => ?_⟩
  have hstop : ∀ u ∈ more.head?, p u = false := by
    intro u hu
    cases hmore with
    | inl hended =>
      cases hpu : p u with
      | false => rfl
      | true => exact absurd (hended u hu) (by rw [hp u hpu]; exact Bool.false_ne_true)
    | inr hsame =>
      rw [hsame] at hu
      have hhead := List.head?_dropWhile_not p text
      rw [hu] at hhead
      simpa using hhead
  have htake : (text.takeWhile p ++ more).takeWhile p = text.takeWhile p := by
    rw [List.takeWhile_append_of_pos htaken]
    cases more with
    | nil => simp
    | cons u more => simp [hstop u rfl]
  have hdrop : (text.takeWhile p ++ more).dropWhile p = more := by
    rw [List.dropWhile_append_of_pos htaken]
    cases more with
    | nil => rfl
    | cons u more => simp [hstop u rfl]
  dsimp only
  rw [htake, hdrop, if_neg hne]

section

variable [BEq α] [LawfulBEq α]

/-- A word where a text starts with it. -/
def word (w : List α) (b : β) (other : List α → Option (β × List α)) (text : List α) :
    Option (β × List α) :=
  if w.isPrefixOf text then some (b, text.drop w.length) else other text

/-- A reader that takes nothing that starts with a unit. -/
def Avoids (first : α) (read : List α → Option (β × List α)) : Prop :=
  ∀ text r, read text = some r → text.head? ≠ some first

theorem Avoids.word {first : α} {w : List α} {other : List α → Option (β × List α)}
    (h : Avoids first other) (hw : ∃ u ∈ w.head?, u ≠ first) (b : β) :
    Avoids first (word w b other) := by
  intro text r hread hhead
  rw [TextReaders.word] at hread
  split at hread
  · rename_i hstart
    obtain ⟨u, hu, hne⟩ := hw
    obtain ⟨more, rfl⟩ := List.isPrefixOf_iff_prefix.1 hstart
    cases w with
    | nil => cases hu
    | cons v w =>
      cases hu
      cases hhead
      exact hne rfl
  · exact h text r hread hhead

/-- A word before a reader that takes nothing that starts like it. -/
theorem Takes.word {w : List α} {other : List α → Option (β × List α)} (h : Takes ends other)
    (hw : ∀ u ∈ w, ends u = false) (havoids : ∀ first ∈ w.head?, Avoids first other) (b : β) :
    Takes ends (word w b other) := by
  intro text b' rest hread
  rw [TextReaders.word] at hread
  split at hread
  · rename_i hstart
    obtain ⟨more, rfl⟩ := List.isPrefixOf_iff_prefix.1 hstart
    rw [List.drop_left] at hread
    cases hread
    refine ⟨w, rfl, hw, fun more _ => ?_⟩
    rw [TextReaders.word, if_pos (List.isPrefixOf_iff_prefix.2 (List.prefix_append _ _)),
      List.drop_left]
  · rename_i hstart
    obtain ⟨used, rfl, hused, hmore⟩ := h text b' rest hread
    refine ⟨used, rfl, hused, fun more hend => ?_⟩
    rw [TextReaders.word, if_neg, hmore more hend]
    intro hword
    obtain ⟨tail, htail⟩ := List.isPrefixOf_iff_prefix.1 hword
    cases w with
    | nil => exact hstart (List.isPrefixOf_iff_prefix.2 List.nil_prefix)
    | cons first w =>
      apply havoids first rfl (used ++ more) _ (hmore more hend)
      rw [← htail]
      rfl

end

end TextReaders
