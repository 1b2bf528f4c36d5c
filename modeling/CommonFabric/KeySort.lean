import Mathlib.Data.List.Sort

/-!
# Sorting by a key, and dropping repeats

A stable sort by a key depends on its input only through the order of the elements of each key, so
on the elements alone where the key tells them apart. A sorted list without repeats depends on
nothing but which elements there are.
-/

namespace KeySort

variable {α κ : Type} {le : κ → κ → Prop} [DecidableRel le] {key : α → κ}

section Defs

variable (le) (key)

def sortBy (xs : List α) : List α := xs.insertionSort fun a b => le (key a) (key b)

/-- The elements whose key is not that of the one before. -/
def keepAfter [DecidableEq κ] : α → List α → List α
  | _, [] => []
  | previous, x :: xs =>
    if key previous = key x then keepAfter x xs else x :: keepAfter x xs

def dedupeSorted [DecidableEq κ] : List α → List α
  | [] => []
  | x :: xs => x :: keepAfter key x xs

end Defs

theorem sortBy_perm (xs : List α) : (sortBy le key xs).Perm xs := List.perm_insertionSort _ xs

variable {xs : List α}

@[simp] theorem mem_sortBy {a : α} : a ∈ sortBy le key xs ↔ a ∈ xs :=
  (sortBy_perm xs).mem_iff

theorem sortBy_of_pairwise (h : xs.Pairwise fun a b => le (key a) (key b)) :
    sortBy le key xs = xs :=
  List.Pairwise.insertionSort_eq h

/-- A function that keeps the key may be applied before the sort. -/
theorem map_sortBy {β : Type} (key : β → κ) (f : α → β) (xs : List α) :
    (sortBy le (fun a => key (f a)) xs).map f = sortBy le key (xs.map f) :=
  List.map_insertionSort _ _ f xs fun _ _ _ _ => Iff.rfl

theorem pairwise_sortBy [Std.Total le] [IsTrans κ le] (xs : List α) :
    (sortBy le key xs).Pairwise fun a b => le (key a) (key b) := by
  have htotal : Std.Total fun a b : α => le (key a) (key b) :=
    ⟨fun a b => Std.Total.total (r := le) (key a) (key b)⟩
  have htrans : IsTrans α fun a b : α => le (key a) (key b) :=
    ⟨fun _ _ _ hab hbc => IsTrans.trans _ _ _ hab hbc⟩
  exact List.pairwise_insertionSort _ xs

/-- Elements that a function leaves alone are sorted once and for all. -/
theorem sortBy_map_idem [Std.Total le] [IsTrans κ le] {f : α → α} (hf : ∀ a, f (f a) = f a) (xs : List α) :
    sortBy le key ((sortBy le key (xs.map f)).map f) = sortBy le key (xs.map f) := by
  have hfixed : (sortBy le key (xs.map f)).map f = sortBy le key (xs.map f) := by
    apply (List.map_congr_left _).trans (List.map_id _)
    intro a ha
    obtain ⟨b, -, rfl⟩ := List.mem_map.1 (mem_sortBy.1 ha)
    exact hf b
  rw [hfixed]
  exact sortBy_of_pairwise (pairwise_sortBy _)

/-- Inserting an element puts it ahead of those of its own key. -/
theorem filter_orderedInsert [Std.Total le] [DecidableEq κ] (a : α) (xs : List α) (k : κ) :
    (xs.orderedInsert (fun a b => le (key a) (key b)) a).filter (key · = k) =
      (a :: xs).filter (key · = k) := by
  induction xs with
  | nil => rfl
  | cons x xs ih =>
    rw [List.orderedInsert]
    split
    case isTrue => rfl
    case isFalse hle =>
      have hne : key a ≠ key x := by
        intro heq
        have hrefl := (Std.Total.total (r := le) (key a) (key a)).elim id id
        exact hle (heq ▸ hrefl)
      rw [List.filter_cons, ih]
      simp only [List.filter_cons]
      by_cases ha : key a = k
      · have hx : key x ≠ k := fun hx => hne (ha.trans hx.symm)
        simp [ha, hx]
      · simp [ha]

/-- The sort is stable. -/
theorem filter_sortBy [Std.Total le] [DecidableEq κ] (xs : List α) (k : κ) :
    (sortBy le key xs).filter (key · = k) = xs.filter (key · = k) := by
  induction xs with
  | nil => rfl
  | cons x xs ih =>
    rw [sortBy, List.insertionSort, List.foldr_cons, filter_orderedInsert, List.filter_cons,
      List.filter_cons]
    rw [sortBy, List.insertionSort] at ih
    rw [ih]

/-- Two sorted lists with the same elements of each key, in the same order, are one. -/
theorem eq_of_filter {le : κ → κ → Prop} [Std.Total le] [Std.Antisymm le] [DecidableEq κ]
    {ys : List α} (hxs : xs.Pairwise fun a b => le (key a) (key b))
    (hys : ys.Pairwise fun a b => le (key a) (key b))
    (h : ∀ k, xs.filter (key · = k) = ys.filter (key · = k)) : xs = ys := by
  have hmem : ∀ a, a ∈ xs ↔ a ∈ ys := by
    intro a
    have := h (key a)
    constructor
    · intro ha
      have hfilter : a ∈ xs.filter (key · = key a) := List.mem_filter.2 ⟨ha, by simp⟩
      rw [this] at hfilter
      exact (List.mem_filter.1 hfilter).1
    · intro ha
      have hfilter : a ∈ ys.filter (key · = key a) := List.mem_filter.2 ⟨ha, by simp⟩
      rw [← this] at hfilter
      exact (List.mem_filter.1 hfilter).1
  induction xs generalizing ys with
  | nil =>
    cases ys with
    | nil => rfl
    | cons y ys => exact absurd ((hmem y).2 List.mem_cons_self) List.not_mem_nil
  | cons x xs ih =>
    cases ys with
    | nil => exact absurd ((hmem x).1 List.mem_cons_self) List.not_mem_nil
    | cons y ys =>
      have hrefl := fun k => (Std.Total.total (r := le) k k).elim id id
      have hxy : le (key x) (key y) := by
        rcases List.mem_cons.1 ((hmem y).2 List.mem_cons_self) with rfl | hy
        · exact hrefl _
        · exact List.rel_of_pairwise_cons hxs hy
      have hyx : le (key y) (key x) := by
        rcases List.mem_cons.1 ((hmem x).1 List.mem_cons_self) with rfl | hx
        · exact hrefl _
        · exact List.rel_of_pairwise_cons hys hx
      have hkey : key x = key y := Std.Antisymm.antisymm (r := le) _ _ hxy hyx
      have hhead := h (key x)
      simp only [List.filter_cons, hkey, decide_true, if_true, List.cons.injEq] at hhead
      obtain ⟨rfl, -⟩ := hhead
      have htail : ∀ k, xs.filter (key · = k) = ys.filter (key · = k) := by
        intro k
        have hk := h k
        by_cases hx : key x = k
        · simpa [List.filter_cons, hx] using hk
        · simpa [List.filter_cons, hx] using hk
      have hmem' : ∀ a, a ∈ xs ↔ a ∈ ys := by
        intro a
        have := congrArg (a ∈ ·) (htail (key a))
        simpa using this
      rw [ih hxs.of_cons hys.of_cons htail hmem']

/-- A stable sort depends on the order of the elements of each key alone. -/
theorem sortBy_eq [Std.Total le] [IsTrans κ le] [Std.Antisymm le] [DecidableEq κ]
    {ys : List α} (h : ∀ k, xs.filter (key · = k) = ys.filter (key · = k)) :
    sortBy le key xs = sortBy le key ys := by
  apply eq_of_filter (pairwise_sortBy xs) (pairwise_sortBy ys)
  intro k
  rw [filter_sortBy, filter_sortBy, h]

/-- Where the key tells the elements apart, it depends on the elements alone. -/
theorem sortBy_eq_of_perm [Std.Total le] [IsTrans κ le] [Std.Antisymm le]
    {ys : List α} (h : xs.Perm ys)
    (hkey : ∀ a ∈ xs, ∀ b ∈ ys, key a = key b → a = b) : sortBy le key xs = sortBy le key ys := by
  apply List.Perm.eq_of_pairwise _ (pairwise_sortBy xs) (pairwise_sortBy ys)
    (((sortBy_perm xs).trans h).trans (sortBy_perm ys).symm)
  intro a b ha hb hab hba
  exact hkey a (mem_sortBy.1 ha) b (mem_sortBy.1 hb) (Std.Antisymm.antisymm (r := le) _ _ hab hba)

/-- Sorted elements, none with the key of the one before, are all different. -/
theorem nodup_of_isChain {le : κ → κ → Prop} [Std.Total le] [IsTrans κ le] [Std.Antisymm le]
    (hsorted : xs.Pairwise fun a b => le (key a) (key b))
    (hchain : xs.IsChain fun a b => key a ≠ key b) : xs.Nodup := by
  induction xs with
  | nil => exact List.nodup_nil
  | cons x xs ih =>
    rw [List.nodup_cons]
    refine ⟨?_, ih hsorted.of_cons hchain.of_cons⟩
    intro hx
    cases xs with
    | nil => cases hx
    | cons y ys =>
      rw [List.isChain_cons_cons] at hchain
      have hxy : le (key x) (key y) := List.rel_of_pairwise_cons hsorted List.mem_cons_self
      have hyx : le (key y) (key x) := by
        rcases List.mem_cons.1 hx with rfl | hx
        · exact hxy
        · exact List.rel_of_pairwise_cons hsorted.of_cons hx
      exact hchain.1 (Std.Antisymm.antisymm (r := le) _ _ hxy hyx)

section Repeats

variable [DecidableEq κ]

theorem keepAfter_sublist (previous : α) (xs : List α) : (keepAfter key previous xs).Sublist xs := by
  induction xs generalizing previous with
  | nil => exact List.Sublist.refl _
  | cons x xs ih =>
    rw [keepAfter]
    split
    · exact (ih x).cons x
    · exact (ih x).cons_cons x

theorem dedupeSorted_sublist (xs : List α) : (dedupeSorted key xs).Sublist xs := by
  cases xs with
  | nil => exact List.Sublist.refl _
  | cons x xs => exact (keepAfter_sublist x xs).cons_cons x

/-- No element has the key of the one before. -/
theorem isChain_keepAfter (previous first : α) (h : key previous = key first) (xs : List α) :
    (first :: keepAfter key previous xs).IsChain fun a b => key a ≠ key b := by
  induction xs generalizing previous first with
  | nil => exact List.IsChain.singleton _
  | cons x xs ih =>
    rw [keepAfter]
    split
    case isTrue hx => exact ih x first (hx.symm.trans h)
    case isFalse hx => exact List.IsChain.cons_cons (h ▸ hx) (ih x x rfl)

theorem isChain_dedupeSorted (xs : List α) :
    (dedupeSorted key xs).IsChain fun a b => key a ≠ key b := by
  cases xs with
  | nil => exact List.IsChain.nil
  | cons x xs => exact isChain_keepAfter x x rfl xs

variable {xs : List α}

theorem keepAfter_of_isChain {previous : α}
    (h : (previous :: xs).IsChain fun a b => key a ≠ key b) : keepAfter key previous xs = xs := by
  induction xs generalizing previous with
  | nil => rfl
  | cons x xs ih =>
    rw [List.isChain_cons_cons] at h
    rw [keepAfter, if_neg h.1, ih h.2]

theorem dedupeSorted_of_isChain (h : xs.IsChain fun a b => key a ≠ key b) :
    dedupeSorted key xs = xs := by
  cases xs with
  | nil => rfl
  | cons x xs => rw [dedupeSorted, keepAfter_of_isChain h]

/-- An element is dropped for one of its own key. -/
theorem mem_keepAfter (previous : α) {a : α} (h : a ∈ xs) :
    key a = key previous ∨ ∃ b ∈ keepAfter key previous xs, key b = key a := by
  induction xs generalizing previous with
  | nil => cases h
  | cons x xs ih =>
    rw [keepAfter]
    rcases List.mem_cons.1 h with rfl | h
    · split
      case isTrue hx => exact .inl hx.symm
      case isFalse => exact .inr ⟨a, List.mem_cons_self, rfl⟩
    · rcases ih x h with hx | ⟨b, hb, hkey⟩
      · split
        case isTrue hprevious => exact .inl (hx.trans hprevious.symm)
        case isFalse => exact .inr ⟨x, List.mem_cons_self, hx.symm⟩
      · split
        case isTrue => exact .inr ⟨b, hb, hkey⟩
        case isFalse => exact .inr ⟨b, List.mem_cons_of_mem _ hb, hkey⟩

theorem exists_mem_dedupeSorted {a : α} (h : a ∈ xs) :
    ∃ b ∈ dedupeSorted key xs, key b = key a := by
  cases xs with
  | nil => cases h
  | cons x xs =>
    rcases List.mem_cons.1 h with rfl | h
    · exact ⟨a, List.mem_cons_self, rfl⟩
    · have hkept : key a = key x ∨ ∃ b ∈ keepAfter key x xs, key b = key a := mem_keepAfter x h
      rcases hkept with hx | ⟨b, hb, hkey⟩
      · exact ⟨x, List.mem_cons_self, hx.symm⟩
      · exact ⟨b, List.mem_cons_of_mem _ hb, hkey⟩

/-- Where the key tells the elements apart, none is lost. -/
theorem mem_dedupeSorted (hkey : ∀ a ∈ xs, ∀ b ∈ xs, key a = key b → a = b) {a : α} :
    a ∈ dedupeSorted key xs ↔ a ∈ xs := by
  constructor
  · exact fun h => (dedupeSorted_sublist xs).subset h
  · intro h
    have hkept : ∃ b ∈ dedupeSorted key xs, key b = key a := exists_mem_dedupeSorted h
    obtain ⟨b, hb, hba⟩ := hkept
    rw [← hkey b ((dedupeSorted_sublist xs).subset hb) a h hba]
    exact hb

end Repeats

/-- A sort without repeats depends on nothing but which elements there are. Elements are sorted by
one key and told apart by another, which the first determines. -/
theorem dedupeSorted_eq_of_mem [Std.Total le] [IsTrans κ le] [Std.Antisymm le] {τ : Type}
    [DecidableEq τ] {tag : α → τ} {ys : List α} (htag : ∀ a b, key a = key b → tag a = tag b)
    (hinj : ∀ a ∈ xs, ∀ b ∈ xs, tag a = tag b → a = b) (h : ∀ a, a ∈ xs ↔ a ∈ ys) :
    dedupeSorted tag (sortBy le key xs) = dedupeSorted tag (sortBy le key ys) := by
  have hmem : ∀ {zs}, (∀ a, a ∈ xs ↔ a ∈ zs) →
      ∀ a, a ∈ dedupeSorted tag (sortBy le key zs) ↔ a ∈ xs := by
    intro zs hzs a
    rw [mem_dedupeSorted, mem_sortBy, hzs]
    intro a ha b hb
    exact hinj a ((hzs a).2 (mem_sortBy.1 ha)) b ((hzs b).2 (mem_sortBy.1 hb))
  have hsorted : ∀ zs : List α, (dedupeSorted tag (sortBy le key zs)).Pairwise
      fun a b => le (key a) (key b) := fun zs => (pairwise_sortBy zs).sublist (dedupeSorted_sublist _)
  have hnodup : ∀ zs : List α, (dedupeSorted tag (sortBy le key zs)).Nodup := fun zs =>
    nodup_of_isChain (hsorted zs) ((isChain_dedupeSorted _).imp fun a b hne heq => hne (htag a b heq))
  have hperm : (dedupeSorted tag (sortBy le key xs)).Perm (dedupeSorted tag (sortBy le key ys)) := by
    rw [List.perm_ext_iff_of_nodup (hnodup xs) (hnodup ys)]
    intro a
    rw [hmem (fun _ => Iff.rfl), hmem h]
  apply List.Perm.eq_of_pairwise _ (hsorted xs) (hsorted ys) hperm
  intro a b ha hb hab hba
  exact hinj a ((hmem (fun _ => Iff.rfl) a).1 ha) b ((hmem h b).1 hb)
    (htag a b (Std.Antisymm.antisymm (r := le) _ _ hab hba))

end KeySort
