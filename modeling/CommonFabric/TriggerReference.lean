import CommonFabric.ReactiveDependencies

/-!
# The reference for the reads a write overlaps

The registered paths are sorted once. The proper prefixes of a written path are looked up by binary
search, and the written path with its extensions stands in one range of the sorted list.
-/

namespace Scheduler

/-- `lowerBound`: the first place in the sorted paths at or after `target`. -/
def lowerBound (sorted : List (List JsString)) (target : List JsString) (lower upper : Nat) : Nat :=
  if lower < upper then
    let middle := (lower + upper) / 2
    if comparePaths (sorted.getD middle []) target < 0 then
      lowerBound sorted target (middle + 1) upper
    else lowerBound sorted target lower middle
  else lower
termination_by upper - lower

def sortPaths (registered : List (List JsString)) : List (List JsString) :=
  registered.insertionSort fun a b => comparePaths a b ≤ 0

def createTriggerReference (registered : List (List JsString)) (writePath : List JsString) :
    List (List JsString) :=
  let sorted := sortPaths registered
  let lowerBoundOf := fun target => lowerBound sorted target 0 sorted.length
  (List.range writePath.length).filterMap (fun depth =>
      let stem := writePath.take depth
      sorted[lowerBoundOf stem]?.filter fun path => comparePaths path stem = 0) ++
    (sorted.drop (lowerBoundOf writePath)).takeWhile (arraysOverlap · writePath)

theorem comparePaths_self (a : List JsString) : comparePaths a a = 0 := by
  induction a with
  | nil => rfl
  | cons k a ih => rw [comparePaths, if_pos rfl, ih]

theorem comparePaths_cons_self (k : JsString) (a b : List JsString) :
    comparePaths (k :: a) (k :: b) = comparePaths a b := by
  rw [comparePaths, if_pos rfl]

theorem comparePaths_cons_ne {k l : JsString} (h : k ≠ l) (a b : List JsString) :
    comparePaths (k :: a) (l :: b) = if k.lt l then -1 else 1 := by
  rw [comparePaths, if_neg h]

example : comparePaths ["a"] ["b"] < 0 := by decide +kernel

theorem comparePaths_cons_nil (k : JsString) (a : List JsString) : 0 < comparePaths (k :: a) [] := by
  simp [comparePaths]

theorem comparePaths_nil_cons (k : JsString) (a : List JsString) : comparePaths [] (k :: a) < 0 := by
  simp [comparePaths]
  omega

theorem comparePaths_eq_zero {a b : List JsString} (h : comparePaths a b = 0) : a = b := by
  induction a generalizing b with
  | nil =>
    cases b with
    | nil => rfl
    | cons l b =>
      have := comparePaths_nil_cons l b
      omega
  | cons k a ih =>
    cases b with
    | nil =>
      have := comparePaths_cons_nil k a
      omega
    | cons l b =>
      by_cases hkl : k = l
      · subst hkl
        rw [comparePaths_cons_self] at h
        rw [ih h]
      · rw [comparePaths_cons_ne hkl] at h
        split at h <;> omega

theorem comparePaths_trans {a b c : List JsString} (hab : comparePaths a b ≤ 0)
    (hbc : comparePaths b c ≤ 0) : comparePaths a c ≤ 0 := by
  induction a generalizing b c with
  | nil =>
    cases c with
    | nil => exact Int.le_of_eq rfl
    | cons m c => exact Int.le_of_lt (comparePaths_nil_cons m c)
  | cons k a ih =>
    cases b with
    | nil =>
      have := comparePaths_cons_nil k a
      omega
    | cons l b =>
      cases c with
      | nil =>
        have := comparePaths_cons_nil l b
        omega
      | cons m c =>
        by_cases hkl : k = l
        · subst hkl
          rw [comparePaths_cons_self] at hab
          by_cases hkm : k = m
          · subst hkm
            rw [comparePaths_cons_self] at hbc ⊢
            exact ih hab hbc
          · rw [comparePaths_cons_ne hkm] at hbc ⊢
            exact hbc
        · rw [comparePaths_cons_ne hkl] at hab
          have hlt : k.lt l = true := by
            by_contra hnot
            rw [if_neg hnot] at hab
            omega
          by_cases hlm : l = m
          · subst hlm
            rw [comparePaths_cons_ne hkl, if_pos hlt]
            omega
          · rw [comparePaths_cons_ne hlm] at hbc
            have hlt' : l.lt m = true := by
              by_contra hnot
              rw [if_neg hnot] at hbc
              omega
            have hkm := JsString.lt_trans hlt hlt'
            rw [comparePaths_cons_ne (JsString.ne_of_lt hkm), if_pos hkm]
            omega

/-- The order the other way around. -/
theorem comparePaths_neg_iff {a b : List JsString} :
    comparePaths a b < 0 ↔ 0 < comparePaths b a := by
  induction a generalizing b with
  | nil =>
    cases b with
    | nil => simp [comparePaths]
    | cons l b => exact iff_of_true (comparePaths_nil_cons l b) (comparePaths_cons_nil l b)
  | cons k a ih =>
    cases b with
    | nil =>
      have := comparePaths_cons_nil k a
      have := comparePaths_nil_cons k a
      exact iff_of_false (by omega) (by omega)
    | cons l b =>
      by_cases hkl : k = l
      · subst hkl
        rw [comparePaths_cons_self, comparePaths_cons_self]
        exact ih
      · rw [comparePaths_cons_ne hkl, comparePaths_cons_ne (Ne.symm hkl)]
        cases hlt : k.lt l with
        | true => simp [JsString.lt_asymm hlt]
        | false => simp [JsString.lt_total hkl hlt]

theorem comparePaths_total (a b : List JsString) : comparePaths a b ≤ 0 ∨ comparePaths b a ≤ 0 := by
  by_cases h : comparePaths a b ≤ 0
  · exact .inl h
  · have := comparePaths_neg_iff (a := b) (b := a)
    exact .inr (by omega)

theorem comparePaths_nonneg_iff {a b : List JsString} :
    0 ≤ comparePaths a b ↔ comparePaths b a ≤ 0 := by
  have := comparePaths_neg_iff (a := a) (b := b)
  omega

instance : IsTrans (List JsString) fun a b => comparePaths a b ≤ 0 := ⟨fun _ _ _ => comparePaths_trans⟩

instance : Std.Total fun a b : List JsString => comparePaths a b ≤ 0 := ⟨comparePaths_total⟩

/-- Between a path and one of its extensions there are only its extensions. -/
theorem prefix_of_between {w a r : List JsString} (hwa : comparePaths w a ≤ 0)
    (har : comparePaths a (w ++ r) ≤ 0) : w <+: a := by
  induction w generalizing a with
  | nil => exact List.nil_prefix
  | cons k w ih =>
    cases a with
    | nil =>
      have := comparePaths_cons_nil k w
      omega
    | cons l a =>
      rw [List.cons_append] at har
      by_cases hkl : k = l
      · subst hkl
        rw [comparePaths_cons_self] at hwa har
        rw [List.cons_prefix_cons]
        exact ⟨rfl, ih hwa har⟩
      · rw [comparePaths_cons_ne hkl] at hwa
        rw [comparePaths_cons_ne (Ne.symm hkl)] at har
        cases hlt : k.lt l with
        | true =>
          rw [if_neg (JsString.lt_asymm hlt)] at har
          omega
        | false =>
          rw [hlt] at hwa
          simp at hwa

theorem comparePaths_append (w r : List JsString) : comparePaths w (w ++ r) ≤ 0 := by
  induction w with
  | nil =>
    cases r with
    | nil => exact Int.le_of_eq rfl
    | cons l r => exact Int.le_of_lt (comparePaths_nil_cons l r)
  | cons k w ih =>
    rw [List.cons_append, comparePaths_cons_self]
    exact ih

/-- What stands before the bound is before the target, and the rest is not. -/
theorem lowerBound_spec {sorted : List (List JsString)}
    (hsorted : sorted.Pairwise fun a b => comparePaths a b ≤ 0) (target : List JsString)
    {lower upper : Nat} (hupper : upper ≤ sorted.length) (hle : lower ≤ upper)
    (hbefore : ∀ x ∈ sorted.take lower, comparePaths x target < 0)
    (hafter : ∀ x ∈ sorted.drop upper, 0 ≤ comparePaths x target) :
    (∀ x ∈ sorted.take (lowerBound sorted target lower upper), comparePaths x target < 0) ∧
      ∀ x ∈ sorted.drop (lowerBound sorted target lower upper), 0 ≤ comparePaths x target := by
  fun_induction lowerBound sorted target lower upper with
  | case1 lower upper hlt middle hbelow ih =>
    have hmiddle : middle < sorted.length := by omega
    have hget : sorted.getD middle [] = sorted[middle] := by
      rw [List.getD_eq_getElem?_getD, List.getElem?_eq_getElem hmiddle, Option.getD_some]
    rw [hget] at hbelow
    refine ih hupper (by omega) (fun x hx => ?_) hafter
    rw [List.take_succ_eq_append_getElem hmiddle] at hx
    rcases List.mem_append.1 hx with hx | hx
    · obtain ⟨i, hi, rfl⟩ := List.getElem_of_mem hx
      rw [List.length_take] at hi
      have hx := List.pairwise_iff_getElem.1 hsorted i middle (by omega) hmiddle (by omega)
      rw [List.getElem_take]
      by_contra hge
      have := comparePaths_trans (comparePaths_nonneg_iff.1 (by omega :
        0 ≤ comparePaths sorted[i] target)) hx
      have := comparePaths_nonneg_iff.2 this
      omega
    · rw [List.mem_singleton.1 hx]
      exact hbelow
  | case2 lower upper hlt middle habove ih =>
    have hmiddle : middle < sorted.length := by omega
    have hget : sorted.getD middle [] = sorted[middle] := by
      rw [List.getD_eq_getElem?_getD, List.getElem?_eq_getElem hmiddle, Option.getD_some]
    rw [hget] at habove
    refine ih (by omega) (by omega) hbefore fun x hx => ?_
    obtain ⟨i, hi, rfl⟩ := List.getElem_of_mem hx
    rw [List.length_drop] at hi
    rw [List.getElem_drop]
    rcases Nat.eq_zero_or_pos i with rfl | hpos
    · simpa using habove
    · have hx := List.pairwise_iff_getElem.1 hsorted middle (middle + i) hmiddle (by omega) (by omega)
      have := comparePaths_trans (comparePaths_nonneg_iff.1 (by omega :
        0 ≤ comparePaths sorted[middle] target)) hx
      exact comparePaths_nonneg_iff.2 this
  | case3 lower upper hlt =>
    have : lower = upper := by omega
    subst this
    exact ⟨hbefore, hafter⟩

theorem pairwise_sortPaths (registered : List (List JsString)) :
    (sortPaths registered).Pairwise fun a b => comparePaths a b ≤ 0 :=
  List.pairwise_insertionSort _ registered

variable {registered : List (List JsString)} {path : List JsString}

theorem mem_sortPaths :
    path ∈ sortPaths registered ↔ path ∈ registered :=
  (List.perm_insertionSort _ registered).mem_iff

/-- The bound splits the sorted paths. -/
theorem lowerBound_sortPaths (registered : List (List JsString)) (target : List JsString) :
    (∀ x ∈ (sortPaths registered).take
      (lowerBound (sortPaths registered) target 0 (sortPaths registered).length),
        comparePaths x target < 0) ∧
      ∀ x ∈ (sortPaths registered).drop
        (lowerBound (sortPaths registered) target 0 (sortPaths registered).length),
        0 ≤ comparePaths x target :=
  lowerBound_spec (pairwise_sortPaths registered) target (Nat.le_refl _) (Nat.zero_le _)
    (fun x hx => by cases hx) fun x hx => by rw [List.drop_length] at hx; cases hx

/-- A registered path not before the target stands from the bound on. -/
theorem mem_drop_lowerBound {target : List JsString} :
    path ∈ (sortPaths registered).drop
        (lowerBound (sortPaths registered) target 0 (sortPaths registered).length) ↔
      path ∈ registered ∧ 0 ≤ comparePaths path target := by
  obtain ⟨hbefore, hafter⟩ := lowerBound_sortPaths registered target
  constructor
  · intro h
    exact ⟨mem_sortPaths.1 (List.mem_of_mem_drop h), hafter path h⟩
  · rintro ⟨hmem, hge⟩
    rw [← mem_sortPaths, ← List.take_append_drop (lowerBound (sortPaths registered) target 0
      (sortPaths registered).length) (sortPaths registered)] at hmem
    rcases List.mem_append.1 hmem with h | h
    · have := hbefore path h
      omega
    · exact h

/-- A prefix is found where it is registered. -/
theorem getElem?_lowerBound {stem : List JsString} :
    ((sortPaths registered)[lowerBound (sortPaths registered) stem 0
        (sortPaths registered).length]?.filter fun path => comparePaths path stem = 0) = some path ↔
      path = stem ∧ stem ∈ registered := by
  have hmem (path : List JsString) : path ∈ (sortPaths registered).drop
      (lowerBound (sortPaths registered) stem 0 (sortPaths registered).length) ↔
        path ∈ registered ∧ 0 ≤ comparePaths path stem := mem_drop_lowerBound
  have hsorted := (pairwise_sortPaths registered).drop
    (i := lowerBound (sortPaths registered) stem 0 (sortPaths registered).length)
  rw [← List.head?_drop]
  rw [Option.filter_eq_some_iff, decide_eq_true_eq]
  generalize (sortPaths registered).drop (lowerBound (sortPaths registered) stem 0
    (sortPaths registered).length) = rest at hmem hsorted ⊢
  constructor
  · rintro ⟨hhead, hzero⟩
    have heq := comparePaths_eq_zero hzero
    subst heq
    exact ⟨rfl, ((hmem path).1 (List.mem_of_head? hhead)).1⟩
  · rintro ⟨rfl, hregistered⟩
    have hin := (hmem path).2 ⟨hregistered, Int.le_of_eq (comparePaths_self path).symm⟩
    cases rest with
    | nil => cases hin
    | cons x rest =>
      have hge := ((hmem x).1 List.mem_cons_self).2
      have hle : comparePaths x path ≤ 0 := by
        rcases List.mem_cons.1 hin with rfl | hin
        · exact Int.le_of_eq (comparePaths_self path)
        · exact (List.pairwise_cons.1 hsorted).1 path hin
      rw [comparePaths_eq_zero (show comparePaths x path = 0 by omega), comparePaths_self]
      exact ⟨rfl, rfl⟩

/-- Of sorted paths not before the written one, those that overlap it come first. -/
theorem mem_takeWhile_overlap {writePath : List JsString} {rest : List (List JsString)}
    (hsorted : rest.Pairwise fun a b => comparePaths a b ≤ 0)
    (hge : ∀ x ∈ rest, 0 ≤ comparePaths x writePath) :
    path ∈ rest.takeWhile (arraysOverlap · writePath) ↔ path ∈ rest ∧ writePath <+: path := by
  have hextends : ∀ x, 0 ≤ comparePaths x writePath → arraysOverlap x writePath = true →
      writePath <+: x := by
    intro x hx hoverlap
    rcases arraysOverlap_iff.1 hoverlap with ⟨r, rfl⟩ | h
    · have hle := comparePaths_append x r
      have heq : x = x ++ r := comparePaths_eq_zero (by omega)
      rw [← heq]
    · exact h
  induction rest with
  | nil => simp
  | cons x rest ih =>
    obtain ⟨hx, hrest⟩ := List.pairwise_cons.1 hsorted
    rw [List.forall_mem_cons] at hge
    rw [List.takeWhile_cons]
    split
    case isTrue hoverlap =>
      rw [List.mem_cons, List.mem_cons, or_and_right]
      apply or_congr
      · constructor
        · rintro rfl
          exact ⟨rfl, hextends path hge.1 hoverlap⟩
        · exact fun h => h.1
      · exact ih hrest hge.2
    case isFalse hoverlap =>
      refine iff_of_false List.not_mem_nil ?_
      rintro ⟨hmem, r, hr⟩
      subst hr
      apply hoverlap
      rcases List.mem_cons.1 hmem with rfl | hmem
      · exact arraysOverlap_iff.2 (.inr (List.prefix_append _ _))
      · exact arraysOverlap_iff.2
          (.inr (prefix_of_between (comparePaths_nonneg_iff.1 hge.1) (hx _ hmem)))

/-- The reference yields the registered paths that the written path overlaps. -/
theorem mem_createTriggerReference {writePath : List JsString} :
    path ∈ createTriggerReference registered writePath ↔
      path ∈ registered ∧ arraysOverlap path writePath = true := by
  obtain ⟨_, hafter⟩ := lowerBound_sortPaths registered writePath
  rw [createTriggerReference, List.mem_append, List.mem_filterMap,
    mem_takeWhile_overlap ((pairwise_sortPaths registered).drop) hafter, mem_drop_lowerBound]
  simp only [getElem?_lowerBound, List.mem_range, arraysOverlap_iff]
  constructor
  · rintro (⟨depth, hdepth, rfl, hmem⟩ | ⟨⟨hmem, _⟩, hextends⟩)
    · exact ⟨hmem, .inl (List.take_prefix _ _)⟩
    · exact ⟨hmem, .inr hextends⟩
  · rintro ⟨hmem, ⟨r, hr⟩ | ⟨r, hr⟩⟩
    · cases r with
      | nil =>
        rw [List.append_nil] at hr
        subst hr
        exact .inr ⟨⟨hmem, Int.le_of_eq (comparePaths_self path).symm⟩, List.prefix_rfl⟩
      | cons k r =>
        refine .inl ⟨path.length, ?_, ?_⟩
        · rw [← hr, List.length_append, List.length_cons]
          omega
        · rw [← hr, List.take_left]
          exact ⟨rfl, hmem⟩
    · subst hr
      exact .inr ⟨⟨hmem, comparePaths_nonneg_iff.2 (comparePaths_append writePath r)⟩,
        List.prefix_append _ _⟩

end Scheduler
