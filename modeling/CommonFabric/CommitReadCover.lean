import CommonFabric.CommitReadTree

/-!
# Shorter lists of reads that lose nothing

The compaction and the coarsening work on the reads of one document and one basis at a time, and
whatever hits a read of a group hits one of those that are stated for it.
-/

namespace CommitReads

open JsonText

variable {Read : Type} [CommitRead Read]

theorem digits_injective {m n : Nat} (h : digits m = digits n) : m = n := by
  rw [← ofDigits_digits m, ← ofDigits_digits n, h]

theorem not_mem_digits {u : UInt16} (hu : JsonText.isDigit u = false) (n : Nat) : u ∉ digits n := by
  intro hmem
  rw [isDigit_digits n u hmem] at hu
  cases hu

theorem mem_intercalate {u separator : UInt16} {parts : List (List UInt16)}
    (h : u ∈ [separator].intercalate parts) : u = separator ∨ ∃ part ∈ parts, u ∈ part := by
  induction parts with
  | nil => cases h
  | cons part rest ih =>
    cases rest with
    | nil => exact .inr ⟨part, List.mem_cons_self, by simpa [List.intercalate] using h⟩
    | cons next rest =>
      have hsplit : [separator].intercalate (part :: next :: rest) =
          part ++ separator :: [separator].intercalate (next :: rest) := by
        simp [List.intercalate]
      rw [hsplit, List.mem_append, List.mem_cons] at h
      rcases h with h | h | h
      · exact .inr ⟨part, List.mem_cons_self, h⟩
      · exact .inl h
      · exact (ih h).imp_right fun ⟨p, hp, hu⟩ => ⟨p, List.mem_cons_of_mem _ hp, hu⟩

theorem colon_not_mem_localSeqKey (localSeq : List Nat) :
    unit ':' ∉ (localSeqKey localSeq).units := by
  intro hmem
  rcases mem_intercalate hmem with hcomma | ⟨part, hpart, hmem⟩
  · exact absurd hcomma (by decide)
  · obtain ⟨n, -, rfl⟩ := List.mem_map.1 hpart
    exact not_mem_digits (by decide) n hmem

theorem localSeqKey_splitOn {localSeq : List Nat} (h : localSeq ≠ []) :
    (localSeqKey localSeq).units.splitOn (unit ',') = localSeq.map digits := by
  refine List.splitOn_intercalate _ (fun part hpart => ?_) (by simpa using h)
  obtain ⟨n, -, rfl⟩ := List.mem_map.1 hpart
  exact not_mem_digits (by decide) n

theorem localSeqKey_injective {localSeq localSeq' : List Nat}
    (h : localSeqKey localSeq = localSeqKey localSeq') : localSeq = localSeq' := by
  have hnil : ∀ layers : List Nat, localSeqKey [] = localSeqKey layers → layers = [] := by
    intro layers hkey
    by_contra hne
    have hsplit := localSeqKey_splitOn hne
    rw [← hkey] at hsplit
    have hone : ([[]] : List (List UInt16)) = layers.map digits := hsplit
    have hmem : ([] : List UInt16) ∈ layers.map digits := hone ▸ List.mem_cons_self
    obtain ⟨n, -, hempty⟩ := List.mem_map.1 hmem
    exact digits_ne_nil n hempty
  cases localSeq with
  | nil => exact (hnil localSeq' h).symm
  | cons n rest =>
    cases localSeq' with
    | nil => exact hnil (n :: rest) h.symm
    | cons n' rest' =>
      refine List.map_injective_iff.2 (fun _ _ => digits_injective) ?_
      rw [← localSeqKey_splitOn (List.cons_ne_nil n rest), h,
        localSeqKey_splitOn (List.cons_ne_nil n' rest')]

theorem scopeText_injective {scope scope' : CellScope} (h : scopeText scope = scopeText scope') :
    scope = scope' := by
  cases scope <;> cases scope' <;> first | rfl | exact absurd h (by decide)

theorem colon_not_mem_scopeText (scope : CellScope) : unit ':' ∉ (scopeText scope).units := by
  cases scope <;> decide

/-- A text from its last separator on is determined by the joined text. -/
theorem append_last_separator_inj {separator : UInt16} {a a' b b' : List UInt16}
    (hb : separator ∉ b) (hb' : separator ∉ b') (h : a ++ separator :: b = a' ++ separator :: b') :
    a = a' ∧ b = b' := by
  have hreverse : b.reverse ++ separator :: a.reverse = b'.reverse ++ separator :: a'.reverse := by
    simpa using congrArg List.reverse h
  obtain ⟨hb, ha⟩ := JsString.append_separator_inj (by simpa using hb) (by simpa using hb') hreverse
  exact ⟨List.reverse_injective ha, List.reverse_injective hb⟩

theorem key_confirmed (scope : CellScope) (id : EntityId) (seq : Nat) :
    (Basis.confirmed scope id seq).key.units = ("confirmed:" : JsString).units ++
      ((scopeText scope).units ++ unit ':' :: (id.units ++ unit ':' :: (seqText seq).units)) := by
  simp [Basis.key, JsString.concat]
  rfl

theorem key_pending (scope : CellScope) (id : EntityId) (localSeq : List Nat) (basisSeq : Nat) :
    (Basis.pending scope id localSeq basisSeq).key.units = ("pending:" : JsString).units ++
      ((scopeText scope).units ++ unit ':' :: (id.units ++ unit ':' ::
        (localSeqKey localSeq).units ++ unit ':' :: (seqText basisSeq).units)) := by
  simp [Basis.key, JsString.concat]
  rfl

theorem seqText_injective {m n : Nat} (h : (seqText m).units = (seqText n).units) : m = n :=
  digits_injective h

/-- Reads of one key have one basis. -/
theorem key_injective {left right : Basis} (h : left.key = right.key) : left = right := by
  have hunits := congrArg JsString.units h
  have hcolon : ∀ n, unit ':' ∉ (seqText n).units := fun n => not_mem_digits (by decide) n
  cases left with
  | confirmed scope id seq =>
    cases right with
    | pending scope' id' localSeq basisSeq =>
      rw [key_confirmed, key_pending] at hunits
      exact absurd (List.head_eq_of_cons_eq hunits) (by decide)
    | confirmed scope' id' seq' =>
      rw [key_confirmed, key_confirmed] at hunits
      obtain ⟨hscope, hrest⟩ := JsString.append_separator_inj (colon_not_mem_scopeText _)
        (colon_not_mem_scopeText _) (List.append_cancel_left hunits)
      obtain ⟨hid, hseq⟩ := append_last_separator_inj (hcolon _) (hcolon _) hrest
      rw [scopeText_injective (congrArg JsString.mk hscope), seqText_injective hseq,
        show id = id' from congrArg JsString.mk hid]
  | pending scope id localSeq basisSeq =>
    cases right with
    | confirmed scope' id' seq' =>
      rw [key_confirmed, key_pending] at hunits
      exact absurd (List.head_eq_of_cons_eq hunits) (by decide)
    | pending scope' id' localSeq' basisSeq' =>
      rw [key_pending, key_pending] at hunits
      obtain ⟨hscope, hrest⟩ := JsString.append_separator_inj (colon_not_mem_scopeText _)
        (colon_not_mem_scopeText _) (List.append_cancel_left hunits)
      obtain ⟨hrest, hbasis⟩ := append_last_separator_inj (hcolon _) (hcolon _) hrest
      obtain ⟨hid, hlayers⟩ := append_last_separator_inj (colon_not_mem_localSeqKey _)
        (colon_not_mem_localSeqKey _) hrest
      rw [scopeText_injective (congrArg JsString.mk hscope), seqText_injective hbasis,
        localSeqKey_injective (congrArg JsString.mk hlayers),
        show id = id' from congrArg JsString.mk hid]

theorem get_grouped (reads : List Read) (key : JsString) :
    ((grouped reads).get key).getD [] = reads.filter fun read => (basis read).key = key := by
  have hfold : ∀ groups : JsMap JsString (List Read),
      ((reads.foldl (fun groups read => groups.set (basis read).key
        ((groups.get (basis read).key).getD [] ++ [read])) groups).get key).getD [] =
        (groups.get key).getD [] ++ reads.filter fun read => (basis read).key = key := by
    induction reads with
    | nil => simp
    | cons read reads ih =>
      intro groups
      rw [List.foldl_cons, ih, JsMap.get_set]
      by_cases hkey : (basis read).key = key
      · rw [if_pos hkey, hkey, Option.getD_some, List.filter_cons_of_pos (by simpa using hkey),
          List.append_assoc]
        rfl
      · rw [if_neg hkey, List.filter_cons_of_neg (by simpa using hkey)]
  exact hfold JsMap.empty

/-- A group is all reads of a basis. -/
theorem group_eq {reads group : List Read} (h : group ∈ (grouped reads).values) :
    ∃ key, group = reads.filter fun read => (basis read).key = key := by
  obtain ⟨e, he, rfl⟩ := List.mem_map.1 h
  refine ⟨e.1, ?_⟩
  rw [← get_grouped, JsMap.get_of_mem he, Option.getD_some]

theorem group_of_mem {reads : List Read} {read : Read} (h : read ∈ reads) :
    (reads.filter fun other => (basis other).key = (basis read).key) ∈ (grouped reads).values := by
  have hmem : read ∈ reads.filter fun other => (basis other).key = (basis read).key :=
    List.mem_filter.2 ⟨h, by simp⟩
  rw [← get_grouped] at hmem ⊢
  cases hget : (grouped reads).get (basis read).key with
  | none =>
    rw [hget] at hmem
    cases hmem
  | some group => exact List.mem_map.2 ⟨_, JsMap.mem_of_get hget, rfl⟩

/-- A list of reads names no basis that is not named by another, and is hit at every basis at
which that is hit. -/
structure Keeps (short full : List Read) : Prop where
  named : ∀ e ∈ short, ∃ read ∈ full, basis e = basis read
  covers : ∀ T, Lifts T → ∀ read ∈ full, Hits T read →
    ∃ e ∈ short, basis e = basis read ∧ Hits T e

theorem Keeps.refl (reads : List Read) : Keeps reads reads :=
  ⟨fun e he => ⟨e, he, rfl⟩, fun _ _ read hread hhit => ⟨read, hread, rfl, hhit⟩⟩

theorem Keeps.trans {short middle full : List Read} (h : Keeps short middle)
    (h' : Keeps middle full) : Keeps short full where
  named e he := by
    obtain ⟨read, hread, hbasis⟩ := h.named e he
    obtain ⟨read', hread', hbasis'⟩ := h'.named read hread
    exact ⟨read', hread', hbasis.trans hbasis'⟩
  covers T hT read hread hhit := by
    obtain ⟨e, he, hbasis, hhit⟩ := h'.covers T hT read hread hhit
    obtain ⟨e', he', hbasis', hhit⟩ := h.covers T hT e he hhit
    exact ⟨e', he', hbasis'.trans hbasis, hhit⟩

/-- What keeps every group of one basis keeps the whole. -/
theorem Keeps.groups {reads : List Read} {f : List Read → List Read}
    (h : ∀ group : List Read, (∀ read ∈ group, ∀ other ∈ group, basis read = basis other) →
      Keeps (f group) group) : Keeps ((grouped reads).values.flatMap f) reads := by
  have hkeeps : ∀ key, Keeps (f (reads.filter fun read => (basis read).key = key))
      (reads.filter fun read => (basis read).key = key) := by
    intro key
    refine h _ fun read hread other hother => key_injective ?_
    rw [List.mem_filter, decide_eq_true_eq] at hread hother
    rw [hread.2, hother.2]
  constructor
  · intro e he
    obtain ⟨group, hgroup, he⟩ := List.mem_flatMap.1 he
    obtain ⟨key, rfl⟩ := group_eq hgroup
    obtain ⟨read, hread, hbasis⟩ := (hkeeps key).named e he
    exact ⟨read, (List.mem_filter.1 hread).1, hbasis⟩
  · intro T hT read hread hhit
    obtain ⟨e, he, hbasis, hhit⟩ := (hkeeps (basis read).key).covers T hT read
      (List.mem_filter.2 ⟨hread, by simp⟩) hhit
    exact ⟨e, List.mem_flatMap.2 ⟨_, group_of_mem hread, he⟩, hbasis, hhit⟩

theorem compactDependencyGroup_keeps {group : List Read}
    (hone : ∀ read ∈ group, ∀ other ∈ group, basis read = basis other)
    (observed : Option EntityDocument) :
    Keeps (compactDependencyGroup group observed) group := by
  have hnamed : ∀ e ∈ compactDependencyGroup group observed, ∃ read ∈ group,
      basis e = basis read := by
    intro e he
    obtain ⟨-, read, hholds, hbasis⟩ := compact_from (placed_addReads group (placed_empty [])) e he
    exact ⟨read, (holds_of_addReads hholds).resolve_right not_holds_empty, hbasis⟩
  refine ⟨hnamed, fun T hT read hread hhit => ?_⟩
  obtain ⟨first, hholds, hpath, hkind⟩ := addReads_holds (placed_empty []) hread
  rw [Hits, ← hpath, ← hkind] at hhit
  have hcovers : (∃ e ∈ compactDependencyGroup group observed, Hits T e) ∨
      false = true ∧ T [] false :=
    compact_covers hT (placed_addReads group (placed_empty []))
      (fun h => absurd h Bool.false_ne_true) hholds hhit
  obtain ⟨e, he, hhit⟩ := hcovers.resolve_right fun h => Bool.false_ne_true h.1
  obtain ⟨other, hother, hbasis⟩ := hnamed e he
  exact ⟨e, he, hbasis.trans (hone other hother read hread), hhit⟩

theorem commonPrefix_prefix (left right : ValuePath) :
    commonPrefix left right <+: left ∧ commonPrefix left right <+: right := by
  induction left generalizing right with
  | nil => exact ⟨List.nil_prefix, List.nil_prefix⟩
  | cons segment left ih =>
    cases right with
    | nil => exact ⟨List.nil_prefix, List.nil_prefix⟩
    | cons segment' right =>
      rw [commonPrefix]
      split
      case isTrue h =>
        subst h
        exact ⟨List.cons_prefix_cons.2 ⟨rfl, (ih right).1⟩,
          List.cons_prefix_cons.2 ⟨rfl, (ih right).2⟩⟩
      case isFalse => exact ⟨List.nil_prefix, List.nil_prefix⟩

theorem foldl_commonPrefix (paths : List ValuePath) (shared : ValuePath) :
    paths.foldl commonPrefix shared <+: shared ∧
      ∀ path ∈ paths, paths.foldl commonPrefix shared <+: path := by
  induction paths generalizing shared with
  | nil => exact ⟨List.prefix_rfl, by simp⟩
  | cons next paths ih =>
    obtain ⟨hshared, hpaths⟩ := ih (commonPrefix shared next)
    obtain ⟨hleft, hright⟩ := commonPrefix_prefix shared next
    refine ⟨hshared.trans hleft, fun path hpath => ?_⟩
    rcases List.mem_cons.1 hpath with rfl | hpath
    · exact hshared.trans hright
    · exact hpaths path hpath

theorem coarsenWideReadGroup_keeps {group : List Read}
    (hone : ∀ read ∈ group, ∀ other ∈ group, basis read = basis other) :
    Keeps (coarsenWideReadGroup group) group := by
  unfold coarsenWideReadGroup
  split
  · exact Keeps.refl group
  · cases group with
    | nil => exact Keeps.refl []
    | cons statement rest =>
      dsimp only
      have hshared : ∀ read ∈ statement :: rest,
          commonDocumentPathPrefix ((statement :: rest).map path) <+: path read :=
        fun read hread => (foldl_commonPrefix _ _).2 _ (List.mem_map_of_mem hread)
      revert hshared
      generalize commonDocumentPathPrefix ((statement :: rest).map path) = shared
      intro hshared
      have hbasis : ∀ kind, ∀ read ∈ statement :: rest,
          basis (restate statement shared kind) = basis read := fun kind read hread =>
        (CommitRead.basis_restate ..).trans (hone statement List.mem_cons_self read hread)
      constructor
      · intro e he
        refine ⟨statement, List.mem_cons_self, ?_⟩
        rcases List.mem_append.1 he with he | he
        · split at he
          · exact List.mem_singleton.1 he ▸ hbasis true statement List.mem_cons_self
          · cases he
        · exact List.mem_singleton.1 he ▸ hbasis false statement List.mem_cons_self
      · intro T hT read hread hhit
        have hstate : ∀ kind, T shared kind → Hits T (restate statement shared kind) := by
          intro kind hhit
          rw [Hits, CommitRead.path_restate, CommitRead.nonRecursive_restate]
          exact hhit
        have hdeep := fun h : T shared false => (⟨_, List.mem_append_right _ List.mem_cons_self,
          hbasis false read hread, hstate false h⟩ :
            ∃ e ∈ (if (statement :: rest).any nonRecursive then [restate statement shared true]
              else []) ++ [restate statement shared false], basis e = basis read ∧ Hits T e)
        cases hkind : nonRecursive read with
        | false =>
          rw [Hits, hkind] at hhit
          exact hdeep (hT.recursive shared (path read) (hshared read hread) hhit)
        | true =>
          rw [Hits, hkind] at hhit
          rcases hT.shallow shared (path read) (hshared read hread) hhit with hhit | hhit
          · rw [if_pos (List.any_eq_true.2 ⟨read, hread, hkind⟩)]
            exact ⟨_, List.mem_append_left _ List.mem_cons_self, hbasis true read hread,
              hstate true hhit⟩
          · exact hdeep hhit

theorem compactCommitReads_keeps (reads : List Read)
    (observedDocument : Read → Option EntityDocument) :
    Keeps (compactCommitReads reads observedDocument) reads := by
  have hkeeps : Keeps ((grouped reads).values.flatMap fun group =>
      compactDependencyGroup group (group.head?.bind observedDocument)) reads :=
    Keeps.groups fun group hone => compactDependencyGroup_keeps hone _
  constructor
  · intro e he
    exact hkeeps.named e (List.mem_mergeSort.1 he)
  · intro T hT read hread hhit
    obtain ⟨e, he, hbasis, hhit⟩ := hkeeps.covers T hT read hread hhit
    exact ⟨e, List.mem_mergeSort.2 he, hbasis, hhit⟩

theorem coarsen_keeps (reads : List Read) : Keeps (coarsen reads) reads := by
  rw [coarsen]
  split
  · exact Keeps.refl reads
  · exact Keeps.groups fun group hone => coarsenWideReadGroup_keeps hone

end CommitReads
