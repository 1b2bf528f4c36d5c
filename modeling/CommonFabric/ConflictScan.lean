import CommonFabric.PatchOverlap
import CommonFabric.ValuePath

/-!
# The indexed conflict scan is the plain scan

The plain scan of a document finds the newest `set` or `delete` after the read's basis, and where
there is none reads the patches newest first up to one that touches the read. One commit's reads
share what each of them learned, and every one is answered as the plain scan answers it.
-/

/-- What a query of the newest seq answers, of the seqs with a property. -/
def IsNewest (P : Nat → Prop) : Option Nat → Prop
  | none => ∀ n, ¬ P n
  | some m => P m ∧ ∀ n, P n → n ≤ m

namespace IsNewest

variable {P Q : Nat → Prop} {o o' : Option Nat}

theorem congr (h : IsNewest P o) (hPQ : ∀ n, P n ↔ Q n) : IsNewest Q o := by
  cases o with
  | none => exact fun n hn => h n ((hPQ n).2 hn)
  | some m => exact ⟨(hPQ m).1 h.1, fun n hn => h.2 n ((hPQ n).2 hn)⟩

theorem unique (h : IsNewest P o) (h' : IsNewest P o') : o = o' := by
  cases o with
  | none =>
    cases o' with
    | none => rfl
    | some m => exact absurd h'.1 (h m)
  | some m =>
    cases o' with
    | none => exact absurd h.1 (h' m)
    | some m' =>
      have hle := h.2 m' h'.1
      have hge := h'.2 m h.1
      rw [Nat.le_antisymm hge hle]

theorem none_of (h : IsNewest P o) (hP : ∀ n, ¬ P n) : o = none := unique h (show IsNewest P none from hP)

/-- The larger of the answers to two questions answers both. -/
theorem newer (h : IsNewest P o) (h' : IsNewest Q o') :
    IsNewest (fun n => P n ∨ Q n) (TouchedPathIndex.newer o o') := by
  cases o with
  | none => exact h'.congr fun n => (or_iff_right (h n)).symm
  | some m =>
    cases o' with
    | none => exact h.congr fun n => (or_iff_left (h' n)).symm
    | some m' =>
      constructor
      · cases Nat.le_total m m' with
        | inl hle =>
          rw [Nat.max_eq_right hle]
          exact .inr h'.1
        | inr hle =>
          rw [Nat.max_eq_left hle]
          exact .inl h.1
      · intro n hn
        cases hn with
        | inl hP => exact Nat.le_trans (h.2 n hP) (Nat.le_max_left m m')
        | inr hQ => exact Nat.le_trans (h'.2 n hQ) (Nat.le_max_right m m')

/-- Only the seqs past a basis matter to a read at the basis. -/
theorem filter_after (h : IsNewest P o) (basis : Nat) :
    IsNewest (fun n => P n ∧ basis < n) (o.filter (basis < ·)) := by
  cases o with
  | none => exact fun n hn => h n hn.1
  | some m =>
    by_cases hm : basis < m
    · rw [Option.filter_some, if_pos (decide_eq_true hm)]
      exact ⟨⟨h.1, hm⟩, fun n hn => h.2 n hn.1⟩
    · rw [Option.filter_some, if_neg (by simpa using hm)]
      intro n hn
      have := h.2 n hn.1
      omega

end IsNewest

namespace NewestMap

theorem isNewest_raise {m : NewestMap} {pointer : JsString} {P : Nat → Prop}
    (h : IsNewest P (m.get? pointer)) (pointer' : JsString) (seq : Nat) :
    IsNewest (fun n => P n ∨ pointer' = pointer ∧ n = seq)
      ((m.raise pointer' seq).get? pointer) := by
  by_cases hp : pointer' = pointer
  · subst hp
    rw [get?_raise_self]
    have hseq : IsNewest (fun n => pointer' = pointer' ∧ n = seq) (some seq) :=
      ⟨⟨rfl, rfl⟩, fun n hn => Nat.le_of_eq hn.2⟩
    have hnewer := h.newer hseq
    cases hm : m.get? pointer' with
    | none =>
      rw [hm] at hnewer
      rw [Option.getD_none, Nat.max_self]
      exact hnewer
    | some n =>
      rw [hm] at hnewer
      exact hnewer
  · rw [get?_raise_other m seq (Ne.symm hp)]
    exact h.congr fun n => (or_iff_left fun hn => hp hn.1).symm

theorem isNewest_foldl_raise {pointer : JsString} (pointers : List JsString) (seq : Nat)
    {m : NewestMap} {P : Nat → Prop} (h : IsNewest P (m.get? pointer)) :
    IsNewest (fun n => P n ∨ pointer ∈ pointers ∧ n = seq)
      ((pointers.foldl (·.raise · seq) m).get? pointer) := by
  induction pointers generalizing m P with
  | nil => exact h.congr fun n => by simp
  | cons p pointers ih =>
    rw [List.foldl_cons]
    apply (ih (isNewest_raise h p seq)).congr
    intro n
    rw [List.mem_cons, or_assoc, ← or_and_right, eq_comm]

end NewestMap

theorem encodePointer_mem_prefixPointers_iff {pre path : ValuePath} :
    Pointer.encodePointer pre ∈ prefixPointers path ↔ isPrefixPath pre path = true := by
  constructor
  · intro h
    rw [prefixPointers_eq, List.mem_map] at h
    obtain ⟨q, hq, heq⟩ := h
    rw [← Pointer.encodePointer_injective heq, isPrefixPath_iff]
    obtain ⟨r, hr⟩ := (List.mem_inits _ _).1 hq
    exact ⟨r, hr.symm⟩
  · exact encodePointer_mem_prefixPointers

namespace TouchedPathIndex

/-- The index holds the paths of a relation, each with the seqs it was touched at. -/
structure Exact (index : TouchedPathIndex) (touched : ValuePath → Nat → Prop) : Prop where
  at_ : ∀ path, IsNewest (touched path) (index.newestAt.get? (Pointer.encodePointer path))
  below : ∀ path, IsNewest (fun n => ∃ p, isPrefixPath path p = true ∧ touched p n)
    (index.newestBelow.get? (Pointer.encodePointer path))

variable {index : TouchedPathIndex} {touched touched' : ValuePath → Nat → Prop}

theorem exact_empty : empty.Exact fun _ _ => False where
  at_ _ _ h := h
  below _ _ h := by
    obtain ⟨_, _, hfalse⟩ := h
    exact hfalse

section

variable (h : index.Exact touched)
include h

theorem Exact.congr (heq : ∀ p n, touched p n ↔ touched' p n) :
    index.Exact touched' where
  at_ path := (h.at_ path).congr (heq path)
  below path := (h.below path).congr fun n =>
    exists_congr fun p => and_congr_right fun _ => heq p n

theorem Exact.add (path : ValuePath) (seq : Nat) :
    (index.add path seq).Exact fun p n => touched p n ∨ p = path ∧ n = seq where
  at_ p := by
    apply (NewestMap.isNewest_raise (h.at_ p) (ownPointer path) seq).congr
    intro n
    rw [ownPointer_eq, Pointer.encodePointer_injective.eq_iff, @eq_comm _ path]
  below p := by
    apply (NewestMap.isNewest_foldl_raise (prefixPointers path) seq (h.below p)).congr
    intro n
    rw [encodePointer_mem_prefixPointers_iff]
    constructor
    · intro hn
      cases hn with
      | inl hold =>
        obtain ⟨q, hq, hn⟩ := hold
        exact ⟨q, hq, .inl hn⟩
      | inr hnew => exact ⟨path, hnew.1, .inr ⟨rfl, hnew.2⟩⟩
    · rintro ⟨q, hq, hn⟩
      cases hn with
      | inl hold => exact .inl ⟨q, hq, hold⟩
      | inr hnew => exact .inr ⟨hnew.1 ▸ hq, hnew.2⟩

theorem Exact.addAll (paths : List ValuePath) (seq : Nat) :
    (paths.foldl (·.add · seq) index).Exact fun p n => touched p n ∨ p ∈ paths ∧ n = seq := by
  induction paths generalizing index touched with
  | nil => exact h.congr fun p n => by simp
  | cons path paths ih =>
    rw [List.foldl_cons]
    apply (ih (h.add path seq)).congr
    intro p n
    rw [List.mem_cons, or_assoc, ← or_and_right]

theorem Exact.newestAtPrefixes (paths : List ValuePath) :
    IsNewest (fun n => ∃ p ∈ paths, touched p n)
      (index.newestAtPrefixes (paths.map Pointer.encodePointer)) := by
  rw [TouchedPathIndex.newestAtPrefixes, List.foldl_map]
  suffices ∀ (P : Nat → Prop) (o : Option Nat), IsNewest P o →
      IsNewest (fun n => P n ∨ ∃ p ∈ paths, touched p n)
        (paths.foldl (fun newest p => newer newest
          (index.newestAt.get? (Pointer.encodePointer p))) o) by
    apply (this (fun _ => False) none fun _ hn => hn).congr
    intro n
    rw [false_or]
  induction paths with
  | nil =>
    intro P o ho
    exact ho.congr fun n => by simp
  | cons path paths ih =>
    intro P o ho
    rw [List.foldl_cons]
    apply (ih _ _ (ho.newer (h.at_ path))).congr
    intro n
    rw [or_assoc]
    simp

theorem Exact.newestPrefixOf (query : ValuePath) :
    IsNewest (fun n => ∃ p, isPrefixPath p query = true ∧ touched p n)
      (index.newestPrefixOf query) := by
  rw [TouchedPathIndex.newestPrefixOf, prefixPointers_eq]
  apply (h.newestAtPrefixes query.inits).congr
  intro n
  apply exists_congr
  intro p
  rw [List.mem_inits, isPrefixPath, List.isPrefixOf_iff_prefix]

theorem Exact.newestOverlapping (query : ValuePath) :
    IsNewest (fun n => ∃ p, pathsOverlap p query = true ∧ touched p n)
      (index.newestOverlapping query) := by
  rw [TouchedPathIndex.newestOverlapping, ownPointer_eq]
  apply ((h.newestPrefixOf query).newer (h.below query)).congr
  intro n
  rw [← exists_or]
  apply exists_congr
  intro p
  rw [← or_and_right, pathsOverlap, Bool.or_eq_true]

end

/-- The index after paths have been added one after another. -/
def ofEntries (entries : List (ValuePath × Nat)) : TouchedPathIndex :=
  entries.foldl (fun index entry => index.add entry.1 entry.2) empty

theorem exact_ofEntries (entries : List (ValuePath × Nat)) :
    (ofEntries entries).Exact fun p n => (p, n) ∈ entries := by
  suffices ∀ (index : TouchedPathIndex) (touched : ValuePath → Nat → Prop), index.Exact touched →
      (entries.foldl (fun index entry => index.add entry.1 entry.2) index).Exact
        fun p n => touched p n ∨ (p, n) ∈ entries by
    apply (this empty _ exact_empty).congr
    intro p n
    rw [false_or]
  induction entries with
  | nil =>
    intro index touched h
    exact h.congr fun p n => by simp
  | cons entry entries ih =>
    intro index touched h
    rw [List.foldl_cons]
    apply (ih _ _ (h.add entry.1 entry.2)).congr
    intro p n
    rw [or_assoc, List.mem_cons, Prod.ext_iff]

/-- The queries answer as a scan of the added paths under `isPrefixPath` and `pathsOverlap` would;
a pointer is parsed back to its path, and the pointers listed are those of the path's prefixes. -/
theorem queries_equal_scan (entries : List (ValuePath × Nat)) (query : ValuePath) :
    IsNewest (fun n => ∃ p, isPrefixPath p query = true ∧ (p, n) ∈ entries)
        ((ofEntries entries).newestPrefixOf query) ∧
      IsNewest (fun n => ∃ p, pathsOverlap p query = true ∧ (p, n) ∈ entries)
        ((ofEntries entries).newestOverlapping query) ∧
      Pointer.parsePointer (Pointer.encodePointer query) = .ok query ∧
      prefixPointers query = query.inits.map Pointer.encodePointer :=
  ⟨(exact_ofEntries entries).newestPrefixOf query, (exact_ofEntries entries).newestOverlapping query,
    Pointer.parsePointer_encodePointer query, prefixPointers_eq query⟩

end TouchedPathIndex

/-- A patch operation touches a read. -/
def TouchesRead (readPath : ValuePath) (nonRecursive : Bool) (op : PatchOp) : Prop :=
  ∃ leaves, touchedLeafPathsForPatch op = .ok leaves ∧
    opTouchesRead op leaves readPath nonRecursive = true

/-- The indexes hold the paths of operations, whose pointers all parse. -/
structure PatchIndexes.Exact (indexes : PatchIndexes) (ops : List (Nat × PatchOp)) : Prop where
  parsed : ∀ e ∈ ops, ∃ leaves, touchedLeafPathsForPatch e.2 = .ok leaves
  leaves : indexes.leaves.Exact fun p n => ∃ e ∈ ops, e.1 = n ∧
    ∃ leaves, touchedLeafPathsForPatch e.2 = .ok leaves ∧ p ∈ leaves
  shapes : indexes.shapes.Exact fun p n => ∃ e ∈ ops, e.1 = n ∧
    ∃ leaves, touchedLeafPathsForPatch e.2 = .ok leaves ∧ p ∈ touchedPathsForPatch e.2 leaves

namespace PatchIndexes

variable {indexes : PatchIndexes} {ops : List (Nat × PatchOp)}

theorem exact_empty : Exact ⟨.empty, .empty⟩ [] where
  parsed _ h := by cases h
  leaves := TouchedPathIndex.exact_empty.congr fun p n => by simp
  shapes := TouchedPathIndex.exact_empty.congr fun p n => by simp

theorem Exact.addOp (h : indexes.Exact ops) {op : PatchOp} {leaves : List ValuePath} (seq : Nat)
    (hleaves : touchedLeafPathsForPatch op = .ok leaves) :
    (indexes.addOp op leaves seq).Exact (ops ++ [(seq, op)]) := by
  have hsplit : ∀ Q : PatchOp → Prop, ∀ n,
      (∃ e ∈ ops ++ [(seq, op)], e.1 = n ∧ Q e.2) ↔
        (∃ e ∈ ops, e.1 = n ∧ Q e.2) ∨ Q op ∧ n = seq := by
    intro Q n
    simp only [List.mem_append, List.mem_singleton, or_and_right, exists_or, exists_eq_left]
    rw [and_comm, @eq_comm _ seq]
  constructor
  · intro e he
    cases List.mem_append.1 he with
    | inl he => exact h.parsed e he
    | inr he =>
      rw [List.mem_singleton.1 he]
      exact ⟨leaves, hleaves⟩
  · apply (h.leaves.addAll leaves seq).congr
    intro p n
    rw [hsplit fun op => ∃ leaves, touchedLeafPathsForPatch op = .ok leaves ∧ p ∈ leaves, hleaves]
    simp
  · apply (h.shapes.addAll (touchedPathsForPatch op leaves) seq).congr
    intro p n
    rw [hsplit fun op => ∃ leaves, touchedLeafPathsForPatch op = .ok leaves ∧
      p ∈ touchedPathsForPatch op leaves, hleaves]
    simp

/-- The indexes answer a read with the newest of the operations that touch it. -/
theorem Exact.newestPatchConflict (h : indexes.Exact ops) (readPath : ValuePath)
    (nonRecursive : Bool) :
    IsNewest (fun n => ∃ e ∈ ops, e.1 = n ∧ TouchesRead readPath nonRecursive e.2)
      (newestPatchConflict indexes readPath nonRecursive) := by
  cases nonRecursive with
  | true =>
    apply (h.shapes.newestPrefixOf readPath).congr
    intro n
    constructor
    · rintro ⟨p, hp, e, he, hn, leaves, hleaves, hmem⟩
      exact ⟨e, he, hn, leaves, hleaves, List.any_eq_true.2 ⟨p, hmem, hp⟩⟩
    · rintro ⟨e, he, hn, leaves, hleaves, htouch⟩
      obtain ⟨p, hmem, hp⟩ := List.any_eq_true.1 htouch
      exact ⟨p, hp, e, he, hn, leaves, hleaves, hmem⟩
  | false =>
    apply (h.leaves.newestOverlapping readPath).congr
    intro n
    constructor
    · rintro ⟨p, hp, e, he, hn, leaves, hleaves, hmem⟩
      exact ⟨e, he, hn, leaves, hleaves, List.any_eq_true.2 ⟨p, hmem, hp⟩⟩
    · rintro ⟨e, he, hn, leaves, hleaves, htouch⟩
      obtain ⟨p, hmem, hp⟩ := List.any_eq_true.1 htouch
      exact ⟨p, hp, e, he, hn, leaves, hleaves, hmem⟩

end PatchIndexes

/-- The first of operations that touches the read. -/
def firstTouching (readPath : ValuePath) (nonRecursive : Bool) :
    List (Nat × PatchOp) → Except EngineError (Option Nat)
  | [] => .ok none
  | (seq, op) :: rest => do
    let leaves ← liftPatch (touchedLeafPathsForPatch op)
    if opTouchesRead op leaves readPath nonRecursive then .ok (some seq)
    else firstTouching readPath nonRecursive rest

section Scan

variable {readPath : ValuePath} {nonRecursive : Bool} {indexes : PatchIndexes} {seq : Nat}
  {op : PatchOp} {leaves : List ValuePath} {ops : List (Nat × PatchOp)}

theorem scanOps_found {found : Nat} (hleaves : touchedLeafPathsForPatch op = .ok leaves)
    (h : newestPatchConflict (indexes.addOp op leaves seq) readPath nonRecursive = some found) :
    scanOps readPath nonRecursive indexes ((seq, op) :: ops) =
      .ok (some found, indexes.addOp op leaves seq) := by
  simp only [scanOps, hleaves, liftPatch, Except.ok_bind, h]

theorem scanOps_passed (hleaves : touchedLeafPathsForPatch op = .ok leaves)
    (h : newestPatchConflict (indexes.addOp op leaves seq) readPath nonRecursive = none) :
    scanOps readPath nonRecursive indexes ((seq, op) :: ops) =
      scanOps readPath nonRecursive (indexes.addOp op leaves seq) ops := by
  conv_lhs => rw [scanOps]
  simp only [hleaves, liftPatch, Except.ok_bind, h]

end Scan

theorem firstTouching_cons {readPath : ValuePath} {nonRecursive : Bool} {seq : Nat} {op : PatchOp}
    {leaves : List ValuePath} (hleaves : touchedLeafPathsForPatch op = .ok leaves)
    (ops : List (Nat × PatchOp)) :
    firstTouching readPath nonRecursive ((seq, op) :: ops) =
      if opTouchesRead op leaves readPath nonRecursive = true then .ok (some seq)
        else firstTouching readPath nonRecursive ops := by
  rw [firstTouching, hleaves]
  rfl

/-- The scan with an index finds what the plain one finds, and one that finds nothing leaves every
operation in the index. -/
theorem scanOps_eq {readPath : ValuePath} {nonRecursive : Bool} {indexes : PatchIndexes}
    {done ops : List (Nat × PatchOp)} (h : indexes.Exact done)
    (hclear : ∀ e ∈ done, ¬ TouchesRead readPath nonRecursive e.2) :
    (scanOps readPath nonRecursive indexes ops).map Prod.fst =
        firstTouching readPath nonRecursive ops ∧
      ∀ indexes', scanOps readPath nonRecursive indexes ops = .ok (none, indexes') →
        indexes'.Exact (done ++ ops) := by
  induction ops generalizing indexes done with
  | nil =>
    refine ⟨rfl, ?_⟩
    intro indexes' heq
    cases heq
    rw [List.append_nil]
    exact h
  | cons e ops ih =>
    obtain ⟨seq, op⟩ := e
    cases hleaves : touchedLeafPathsForPatch op with
    | error err =>
      rw [scanOps, firstTouching, hleaves]
      exact ⟨rfl, fun _ heq => by cases heq⟩
    | ok leaves =>
      have hadded := h.addOp seq hleaves
      have hnewest := hadded.newestPatchConflict readPath nonRecursive
      by_cases htouch : opTouchesRead op leaves readPath nonRecursive = true
      · have hfound : newestPatchConflict (indexes.addOp op leaves seq) readPath nonRecursive =
            some seq := by
          apply hnewest.unique
          constructor
          · exact ⟨(seq, op), by simp, rfl, leaves, hleaves, htouch⟩
          · rintro n ⟨e, he, hn, he'⟩
            cases List.mem_append.1 he with
            | inl he => exact absurd he' (hclear e he)
            | inr he =>
              rw [← hn, List.mem_singleton.1 he]
        rw [firstTouching_cons hleaves, if_pos htouch, scanOps_found hleaves hfound]
        exact ⟨rfl, fun _ heq => by cases heq⟩
      · have hclear' : ∀ e ∈ done ++ [(seq, op)], ¬ TouchesRead readPath nonRecursive e.2 := by
          intro e he
          cases List.mem_append.1 he with
          | inl he => exact hclear e he
          | inr he =>
            rw [List.mem_singleton.1 he]
            rintro ⟨leaves', hleaves', htouch'⟩
            rw [hleaves] at hleaves'
            cases hleaves'
            exact htouch htouch'
        have hnone : newestPatchConflict (indexes.addOp op leaves seq) readPath nonRecursive =
            none := by
          apply hnewest.none_of
          rintro n ⟨e, he, _, he'⟩
          exact hclear' e he he'
        rw [firstTouching_cons hleaves, if_neg htouch, scanOps_passed hleaves hnone]
        have hrest := ih hadded hclear'
        rw [List.append_assoc] at hrest
        exact hrest

/-- Of operations that all parse, newest first, the first that touches the read is the newest. -/
theorem firstTouching_newest {ops : List (Nat × PatchOp)}
    (hdesc : ops.Pairwise fun a b => b.1 ≤ a.1)
    (hparsed : ∀ e ∈ ops, ∃ leaves, touchedLeafPathsForPatch e.2 = .ok leaves)
    (readPath : ValuePath) (nonRecursive : Bool) :
    ∃ found, firstTouching readPath nonRecursive ops = .ok found ∧
      IsNewest (fun n => ∃ e ∈ ops, e.1 = n ∧ TouchesRead readPath nonRecursive e.2) found := by
  induction ops with
  | nil => exact ⟨none, rfl, fun n hn => by obtain ⟨e, he, _⟩ := hn; cases he⟩
  | cons e ops ih =>
    obtain ⟨seq, op⟩ := e
    rw [List.pairwise_cons] at hdesc
    obtain ⟨leaves, hleaves⟩ := hparsed (seq, op) List.mem_cons_self
    rw [firstTouching_cons hleaves]
    by_cases htouch : opTouchesRead op leaves readPath nonRecursive = true
    · rw [if_pos htouch]
      refine ⟨some seq, rfl, ⟨(seq, op), List.mem_cons_self, rfl, leaves, hleaves, htouch⟩, ?_⟩
      rintro n ⟨e, he, hn, _⟩
      cases List.mem_cons.1 he with
      | inl he => rw [← hn, he]
      | inr he =>
        rw [← hn]
        exact hdesc.1 e he
    · rw [if_neg htouch]
      obtain ⟨found, hfound, hnewest⟩ :=
        ih hdesc.2 fun e he => hparsed e (List.mem_cons_of_mem _ he)
      refine ⟨found, hfound, hnewest.congr fun n => ?_⟩
      constructor
      · rintro ⟨e, he, he'⟩
        exact ⟨e, List.mem_cons_of_mem _ he, he'⟩
      · rintro ⟨e, he, hn, he'⟩
        cases List.mem_cons.1 he with
        | inl heq =>
          rw [heq] at he'
          obtain ⟨leaves', hleaves', htouch'⟩ := he'
          rw [show touchedLeafPathsForPatch op = .ok leaves from hleaves] at hleaves'
          cases hleaves'
          exact absurd htouch' htouch
        | inr he => exact ⟨e, he, hn, he'⟩

namespace Store

/-- The patch rows newest first, up to the first whose patches touch the read. -/
def firstOverlap (readPath : ValuePath) (nonRecursive : Bool) :
    List RevisionRow → Except EngineError (Option Nat)
  | [] => .ok none
  | row :: rest => do
    if ← liftPatch (patchesTouchRead nonRecursive (storedPatchList row) readPath) then
      .ok (some row.seq)
    else firstOverlap readPath nonRecursive rest

/-- The scan of a document's revisions after a basis, with nothing learned before it. -/
def directConflictSeq (s : Store) (doc : DocInstance) (afterSeq : Nat) (readPath : ValuePath)
    (nonRecursive : Bool) (exclude : Option ConflictExclusion) : Except EngineError (Option Nat) :=
  match s.selectSetDeleteConflict doc afterSeq exclude with
  | some seq => .ok (some seq)
  | none => firstOverlap readPath nonRecursive (s.selectPatchConflicts doc afterSeq exclude)

theorem firstOverlap_eq (readPath : ValuePath) (nonRecursive : Bool) (rows : List RevisionRow) :
    firstOverlap readPath nonRecursive rows =
      firstTouching readPath nonRecursive (rowOps rows) := by
  induction rows with
  | nil => rfl
  | cons row rows ih =>
    have hops : ∀ patches : List PatchOp,
        (do
          if ← liftPatch (patchesTouchRead nonRecursive patches readPath) then .ok (some row.seq)
          else firstOverlap readPath nonRecursive rows : Except EngineError (Option Nat)) =
        firstTouching readPath nonRecursive
          (patches.map (fun op => (row.seq, op)) ++ rowOps rows) := by
      intro patches
      induction patches with
      | nil =>
        rw [List.map_nil, List.nil_append, ← ih]
        rfl
      | cons op patches ihp =>
        rw [List.map_cons, List.cons_append, firstTouching, ← ihp, patchesTouchRead]
        cases touchedLeafPathsForPatch op with
        | error err => rfl
        | ok leaves =>
          by_cases htouch : opTouchesRead op leaves readPath nonRecursive = true
          · simp [liftPatch, htouch, Except.ok_bind]
          · simp [liftPatch, htouch, Except.ok_bind]
    rw [firstOverlap, hops]
    rfl

variable {s : Store} {scans : ConflictScans}

/-- What the scans remember of each document and exclusion is what the statements answer. -/
def ScansExact (s : Store) (scans : ConflictScans) : Prop :=
  ∀ doc exclude,
    (∀ known ∈ (scans.get (conflictScanKey doc exclude)).newestSetOrDelete,
      s.selectSetDeleteConflict doc known.1 exclude = known.2) ∧
    ∀ basis indexes, (scans.get (conflictScanKey doc exclude)).patches = some (basis, indexes) →
      indexes.Exact (rowOps (s.selectPatchConflicts doc basis exclude))

theorem scansExact_nil : s.ScansExact [] := by
  intro doc exclude
  constructor <;> simp [ConflictScans.get]

theorem ScansExact.put (hs : s.ScansExact scans) {doc : DocInstance}
    {exclude : Option ConflictExclusion} {d : DocumentConflicts}
    (hset : ∀ known ∈ d.newestSetOrDelete,
      s.selectSetDeleteConflict doc known.1 exclude = known.2)
    (hpatch : ∀ basis indexes, d.patches = some (basis, indexes) →
      indexes.Exact (rowOps (s.selectPatchConflicts doc basis exclude))) :
    s.ScansExact (scans.put (conflictScanKey doc exclude) d) := by
  intro doc' exclude'
  by_cases hkey : conflictScanKey doc' exclude' = conflictScanKey doc exclude
  · have hsame : ∀ row, s.notExcluded exclude' row = s.notExcluded exclude row := fun row =>
      (notExcluded_of_key_eq hkey row).2
    have hdoc : doc' = doc := congrArg ScanKey.doc hkey
    subst hdoc
    rw [hkey, ConflictScans.get_put_self]
    simp only [selectSetDeleteConflict, selectPatchConflicts, hsame]
    exact ⟨hset, hpatch⟩
  · rw [ConflictScans.get_put_other _ _ hkey]
    exact hs doc' exclude'

theorem mem_rowOps_iff {rows : List RevisionRow} {e : Nat × PatchOp} :
    e ∈ rowOps rows ↔ ∃ row ∈ rows, row.seq = e.1 ∧ e.2 ∈ storedPatchList row := by
  rw [rowOps, List.mem_flatMap]
  apply exists_congr
  intro row
  apply and_congr_right
  intro _
  rw [List.mem_map]
  constructor
  · rintro ⟨op, hop, rfl⟩
    exact ⟨rfl, hop⟩
  · rintro ⟨hseq, hop⟩
    exact ⟨e.2, hop, Prod.ext hseq rfl⟩

/-- The operations after a basis are those after an earlier one that are past it. -/
theorem mem_rowOps_after {doc : DocInstance} {exclude : Option ConflictExclusion} {basis after : Nat}
    (hle : basis ≤ after) {e : Nat × PatchOp} :
    e ∈ rowOps (s.selectPatchConflicts doc after exclude) ↔
      e ∈ rowOps (s.selectPatchConflicts doc basis exclude) ∧ after < e.1 := by
  rw [mem_rowOps_iff, mem_rowOps_iff]
  constructor
  · rintro ⟨row, hrow, hseq, hop⟩
    obtain ⟨hr, hafter, hp, hex⟩ := mem_selectPatchConflicts.1 hrow
    exact ⟨⟨row, mem_selectPatchConflicts.2 ⟨hr, by omega, hp, hex⟩, hseq, hop⟩, by omega⟩
  · rintro ⟨⟨row, hrow, hseq, hop⟩, hafter⟩
    obtain ⟨hr, _, hp, hex⟩ := mem_selectPatchConflicts.1 hrow
    exact ⟨row, mem_selectPatchConflicts.2 ⟨hr, by omega, hp, hex⟩, hseq, hop⟩

theorem selectPatchConflicts_descending (s : Store) (doc : DocInstance) (after : Nat)
    (exclude : Option ConflictExclusion) :
    (s.selectPatchConflicts doc after exclude).Pairwise fun a b => b.seq ≤ a.seq := by
  rw [selectPatchConflicts, Query.descending, List.pairwise_reverse]
  apply (List.pairwise_insertionSort _ _).imp
  intro a b hab
  cases Prod.Lex.le_iff.1 hab with
  | inl hlt => exact Nat.le_of_lt hlt
  | inr heq => exact Nat.le_of_eq heq.1

theorem rowOps_descending (s : Store) (doc : DocInstance) (after : Nat)
    (exclude : Option ConflictExclusion) :
    (rowOps (s.selectPatchConflicts doc after exclude)).Pairwise fun a b => b.1 ≤ a.1 := by
  rw [rowOps, List.pairwise_flatMap]
  constructor
  · intro row _
    rw [List.pairwise_map]
    exact List.pairwise_of_forall fun _ _ => Nat.le_refl _
  · apply (s.selectPatchConflicts_descending doc after exclude).imp
    intro a b hab x hx y hy
    obtain ⟨_, _, rfl⟩ := List.mem_map.1 hx
    obtain ⟨_, _, rfl⟩ := List.mem_map.1 hy
    exact hab

/-- Indexes kept at a basis decide a read at that basis or a later one as the plain scan does. -/
theorem kept_decides {doc : DocInstance} {exclude : Option ConflictExclusion} {basis after : Nat}
    {indexes : PatchIndexes} (hle : basis ≤ after)
    (h : indexes.Exact (rowOps (s.selectPatchConflicts doc basis exclude))) (readPath : ValuePath)
    (nonRecursive : Bool) :
    firstOverlap readPath nonRecursive (s.selectPatchConflicts doc after exclude) =
      .ok ((newestPatchConflict indexes readPath nonRecursive).filter (after < ·)) := by
  obtain ⟨found, hfound, hnewest⟩ := firstTouching_newest (rowOps_descending s doc after exclude)
    (fun e he => h.parsed e ((mem_rowOps_after hle).1 he).1) readPath nonRecursive
  rw [firstOverlap_eq, hfound]
  congr 1
  apply hnewest.unique
  apply ((h.newestPatchConflict readPath nonRecursive).filter_after after).congr
  intro n
  constructor
  · rintro ⟨⟨e, he, rfl, htouch⟩, hafter⟩
    exact ⟨e, (mem_rowOps_after hle).2 ⟨he, hafter⟩, rfl, htouch⟩
  · rintro ⟨e, he, rfl, htouch⟩
    obtain ⟨he', hafter⟩ := (mem_rowOps_after hle).1 he
    exact ⟨⟨e, he', rfl, htouch⟩, hafter⟩

/-- What is remembered of a basis is what the statement answers. -/
theorem ScansExact.remembered (hs : s.ScansExact scans) {doc : DocInstance}
    {exclude : Option ConflictExclusion} {afterSeq : Nat} {known : Nat × Option Nat}
    (h : ((scans.get (conflictScanKey doc exclude)).newestSetOrDelete.find?
      fun e => e.1 = afterSeq) = some known) :
    known.2 = s.selectSetDeleteConflict doc afterSeq exclude := by
  have hbasis : known.1 = afterSeq := by simpa using List.find?_some h
  rw [← (hs doc exclude).1 known (List.mem_of_find?_eq_some h), hbasis]

/-- The scan of a read, once it is known whether a `set` or `delete` is after its basis. -/
def conflictAfter (s : Store) (scans : ConflictScans) (doc : DocInstance) (afterSeq : Nat)
    (readPath : ValuePath) (nonRecursive : Bool) (exclude : Option ConflictExclusion)
    (setOrDeleteSeq : Option Nat) : Except EngineError (Option Nat × ConflictScans) :=
  let key := conflictScanKey doc exclude
  let document := { scans.get key with
    newestSetOrDelete := (afterSeq, setOrDeleteSeq) :: (scans.get key).newestSetOrDelete }
  match setOrDeleteSeq with
  | some seq => .ok (some seq, scans.put key document)
  | none =>
    let scan := do
      let (found, indexes) ← scanOps readPath nonRecursive ⟨.empty, .empty⟩
        (rowOps (s.selectPatchConflicts doc afterSeq exclude))
      match found with
      | some seq => .ok (some seq, scans.put key document)
      | none => .ok (none, scans.put key { document with patches := some (afterSeq, indexes) })
    match document.patches with
    | some (basis, indexes) =>
      if basis ≤ afterSeq then
        .ok ((newestPatchConflict indexes readPath nonRecursive).filter (afterSeq < ·),
          scans.put key document)
      else scan
    | none => scan

section

variable (doc : DocInstance) (afterSeq : Nat) (readPath : ValuePath) (nonRecursive : Bool)
  (exclude : Option ConflictExclusion)

theorem findConflictSeq_known (hs : s.ScansExact scans) :
    s.findConflictSeq scans doc afterSeq readPath nonRecursive exclude =
      s.conflictAfter scans doc afterSeq readPath nonRecursive exclude
        (s.selectSetDeleteConflict doc afterSeq exclude) := by
  cases hfind : (scans.get (conflictScanKey doc exclude)).newestSetOrDelete.find?
      fun e => e.1 = afterSeq with
  | none =>
    simp only [findConflictSeq, hfind]
    rfl
  | some known =>
    simp only [findConflictSeq, hfind]
    rw [hs.remembered hfind]
    rfl

/-- What answers a read and is learned from it. -/
structure Answers (s : Store) (answer : Except EngineError (Option Nat × ConflictScans))
    (plain : Except EngineError (Option Nat)) : Prop where
  found : answer.map Prod.fst = plain
  learned : ∀ found scans, answer = .ok (found, scans) → s.ScansExact scans

/-- The scan of the patch rows, when no kept indexes decide the read. -/
theorem answers_scan (hs : s.ScansExact scans) {document : DocumentConflicts}
    (hset : ∀ known ∈ document.newestSetOrDelete,
      s.selectSetDeleteConflict doc known.1 exclude = known.2)
    (hpatch : ∀ basis indexes, document.patches = some (basis, indexes) →
      indexes.Exact (rowOps (s.selectPatchConflicts doc basis exclude))) :
    s.Answers (do
      let (found, indexes) ← scanOps readPath nonRecursive ⟨.empty, .empty⟩
        (rowOps (s.selectPatchConflicts doc afterSeq exclude))
      match found with
      | some seq => .ok (some seq, scans.put (conflictScanKey doc exclude) document)
      | none => .ok (none, scans.put (conflictScanKey doc exclude)
          { document with patches := some (afterSeq, indexes) }))
      (firstOverlap readPath nonRecursive (s.selectPatchConflicts doc afterSeq exclude)) := by
  obtain ⟨hfirst, hexact⟩ := @scanOps_eq readPath nonRecursive ⟨.empty, .empty⟩ []
    (rowOps (s.selectPatchConflicts doc afterSeq exclude)) PatchIndexes.exact_empty
    fun _ he => by cases he
  rw [← firstOverlap_eq] at hfirst
  cases hscan : scanOps readPath nonRecursive ⟨.empty, .empty⟩
      (rowOps (s.selectPatchConflicts doc afterSeq exclude)) with
  | error e =>
    rw [hscan] at hfirst
    exact ⟨hfirst, fun _ _ heq => by cases heq⟩
  | ok scanned =>
    obtain ⟨found, indexes⟩ := scanned
    rw [hscan] at hfirst
    cases found with
    | some seq =>
      refine ⟨hfirst, fun _ _ heq => ?_⟩
      cases heq
      exact hs.put hset hpatch
    | none =>
      refine ⟨hfirst, fun _ _ heq => ?_⟩
      cases heq
      apply hs.put (d := { document with patches := some (afterSeq, indexes) }) hset
      intro basis indexes' heq
      cases heq
      exact hexact indexes hscan

/-- A read with what is learned is answered as the plain scan answers it, and what is learned stays
what the statements answer. -/
theorem findConflictSeq_answers (hs : s.ScansExact scans) :
    s.Answers (s.findConflictSeq scans doc afterSeq readPath nonRecursive exclude)
      (s.directConflictSeq doc afterSeq readPath nonRecursive exclude) := by
  obtain ⟨hset, hpatch⟩ := hs doc exclude
  have hset' : ∀ known ∈ (afterSeq, s.selectSetDeleteConflict doc afterSeq exclude) ::
      (scans.get (conflictScanKey doc exclude)).newestSetOrDelete,
      s.selectSetDeleteConflict doc known.1 exclude = known.2 := by
    intro known hk
    cases List.mem_cons.1 hk with
    | inl heq => rw [heq]
    | inr hmem => exact hset known hmem
  rw [findConflictSeq_known _ _ _ _ _ hs, directConflictSeq]
  unfold conflictAfter
  cases hsd : s.selectSetDeleteConflict doc afterSeq exclude with
  | some seq =>
    refine ⟨rfl, fun _ _ heq => ?_⟩
    cases heq
    exact hs.put (hsd ▸ hset') hpatch
  | none =>
    rw [hsd] at hset'
    dsimp only
    cases hkept : (scans.get (conflictScanKey doc exclude)).patches with
    | none => exact answers_scan _ _ _ _ _ hs hset' (hkept ▸ hpatch)
    | some kept =>
      obtain ⟨basis, indexes⟩ := kept
      dsimp only
      by_cases hle : basis ≤ afterSeq
      · rw [if_pos hle, kept_decides hle (hpatch basis indexes hkept)]
        refine ⟨rfl, fun _ _ heq => ?_⟩
        cases heq
        exact hs.put hset' (hkept ▸ hpatch)
      · rw [if_neg hle]
        exact answers_scan _ _ _ _ _ hs hset' (hkept ▸ hpatch)

end

/-- One read as the scan takes it. -/
structure ScannedRead where
  doc : DocInstance
  afterSeq : Nat
  readPath : ValuePath
  nonRecursive : Bool
  exclude : Option ConflictExclusion

/-- The reads one after another, each with what those before it learned. -/
def findConflictSeqs (s : Store) :
    ConflictScans → List ScannedRead → Except EngineError (List (Option Nat))
  | _, [] => .ok []
  | scans, read :: rest => do
    let (found, scans) ← s.findConflictSeq scans read.doc read.afterSeq read.readPath
      read.nonRecursive read.exclude
    return found :: (← findConflictSeqs s scans rest)

/-- A row after a read's basis that its exclusion leaves in. -/
def After (s : Store) (read : ScannedRead) (row : RevisionRow) : Prop :=
  row ∈ s.rowsOf read.doc ∧ read.afterSeq < row.seq ∧ s.notExcluded read.exclude row = true

/-- The newest `set` or `delete` after the read's basis where there is one, and otherwise the
newest patch there that touches the read. -/
structure NewestConflict (s : Store) (read : ScannedRead) (found : Option Nat) : Prop where
  setOrDelete : (∃ row, s.After read row ∧ row.data.isPatch = false) →
    IsNewest (fun n => ∃ row, s.After read row ∧ row.data.isPatch = false ∧ row.seq = n) found
  patch : (¬ ∃ row, s.After read row ∧ row.data.isPatch = false) →
    IsNewest (fun n => ∃ row, s.After read row ∧ row.seq = n ∧
      patchesTouchRead read.nonRecursive (storedPatchList row) read.readPath = .ok true) found

theorem findConflictSeqs_eq (hs : s.ScansExact scans) (reads : List ScannedRead) :
    s.findConflictSeqs scans reads = reads.mapM fun read =>
      s.directConflictSeq read.doc read.afterSeq read.readPath read.nonRecursive read.exclude := by
  induction reads generalizing scans with
  | nil => rfl
  | cons read reads ih =>
    have hanswers := findConflictSeq_answers read.doc read.afterSeq read.readPath read.nonRecursive
      read.exclude hs
    rw [findConflictSeqs, List.mapM_cons, ← hanswers.found]
    cases hfind : s.findConflictSeq scans read.doc read.afterSeq read.readPath read.nonRecursive
        read.exclude with
    | error e => rfl
    | ok answer =>
      obtain ⟨found, scans'⟩ := answer
      rw [Except.ok_bind]
      dsimp only
      rw [ih (hanswers.learned found scans' hfind)]
      rfl

theorem firstOverlap_newest {readPath : ValuePath} {nonRecursive : Bool} {rows : List RevisionRow}
    (hdesc : rows.Pairwise fun a b => b.seq ≤ a.seq) {found : Option Nat}
    (h : firstOverlap readPath nonRecursive rows = .ok found) :
    IsNewest (fun n => ∃ row ∈ rows, row.seq = n ∧
      patchesTouchRead nonRecursive (storedPatchList row) readPath = .ok true) found := by
  induction rows with
  | nil =>
    cases h
    rintro n ⟨row, hrow, _⟩
    cases hrow
  | cons row rows ih =>
    rw [List.pairwise_cons] at hdesc
    obtain ⟨touches, htouches, h⟩ := Except.bind_ok_iff.1 h
    rw [liftPatch_ok_iff] at htouches
    cases touches with
    | true =>
      cases h
      refine ⟨⟨row, List.mem_cons_self, rfl, htouches⟩, ?_⟩
      rintro n ⟨row', hrow', rfl, _⟩
      cases List.mem_cons.1 hrow' with
      | inl heq => rw [heq]
      | inr hmem => exact hdesc.1 row' hmem
    | false =>
      apply (ih hdesc.2 h).congr
      intro n
      constructor
      · rintro ⟨row', hrow', hn⟩
        exact ⟨row', List.mem_cons_of_mem _ hrow', hn⟩
      · rintro ⟨row', hrow', hseq, htouch⟩
        cases List.mem_cons.1 hrow' with
        | inl heq =>
          rw [heq, htouches] at htouch
          cases htouch
        | inr hmem => exact ⟨row', hmem, hseq, htouch⟩

/-- What the statement answers is the newest `set` or `delete` after the basis. -/
theorem selectSetDeleteConflict_newest (s : Store) (read : ScannedRead) :
    IsNewest (fun n => ∃ row, s.After read row ∧ row.data.isPatch = false ∧ row.seq = n)
      (s.selectSetDeleteConflict read.doc read.afterSeq read.exclude) := by
  have hmem : ∀ row, row ∈ (s.rowsOf read.doc).filter (fun r =>
      read.afterSeq < r.seq && !r.data.isPatch && s.notExcluded read.exclude r) ↔
        s.After read row ∧ row.data.isPatch = false := by
    intro row
    rw [List.mem_filter, After]
    simp only [Bool.and_eq_true, decide_eq_true_eq, Bool.not_eq_true']
    tauto
  rw [selectSetDeleteConflict]
  cases hnewest : Query.newest RevisionRow.position ((s.rowsOf read.doc).filter fun r =>
      read.afterSeq < r.seq && !r.data.isPatch && s.notExcluded read.exclude r) with
  | none =>
    rw [Query.newest_eq_none_iff] at hnewest
    rintro n ⟨row, hafter, hpatch, _⟩
    have hrow := (hmem row).2 ⟨hafter, hpatch⟩
    rw [hnewest] at hrow
    cases hrow
  | some newest =>
    obtain ⟨hafter, hpatch⟩ := (hmem newest).1 (Query.newest_mem hnewest)
    refine ⟨⟨newest, hafter, hpatch, rfl⟩, ?_⟩
    rintro n ⟨row, hafter', hpatch', rfl⟩
    have hle := Query.le_newest hnewest ((hmem row).2 ⟨hafter', hpatch'⟩)
    cases Prod.Lex.le_iff.1 hle with
    | inl hlt => exact Nat.le_of_lt hlt
    | inr heq => exact Nat.le_of_eq heq.1

/-- The plain scan answers with the newest conflict. -/
theorem directConflictSeq_newest {read : ScannedRead} {found : Option Nat}
    (h : s.directConflictSeq read.doc read.afterSeq read.readPath read.nonRecursive read.exclude =
      .ok found) : s.NewestConflict read found := by
  have hnewest := s.selectSetDeleteConflict_newest read
  rw [directConflictSeq] at h
  cases hsd : s.selectSetDeleteConflict read.doc read.afterSeq read.exclude with
  | some seq =>
    rw [hsd] at h hnewest
    cases h
    obtain ⟨row, hafter, hpatch, _⟩ := hnewest.1
    exact ⟨fun _ => hnewest, fun hnone => absurd ⟨row, hafter, hpatch⟩ hnone⟩
  | none =>
    rw [hsd] at h hnewest
    constructor
    · rintro ⟨row, hafter, hpatch⟩
      exact absurd ⟨row, hafter, hpatch, rfl⟩ (hnewest row.seq)
    · intro hnone
      apply (firstOverlap_newest (selectPatchConflicts_descending _ _ _ _) h).congr
      intro n
      constructor
      · rintro ⟨row, hrow, hseq, htouch⟩
        obtain ⟨hr, hafter, _, hex⟩ := mem_selectPatchConflicts.1 hrow
        exact ⟨row, ⟨hr, hafter, hex⟩, hseq, htouch⟩
      · rintro ⟨row, ⟨hr, hafter, hex⟩, hseq, htouch⟩
        have hpatch : row.data.isPatch = true := by
          cases hp : row.data.isPatch with
          | true => rfl
          | false => exact absurd ⟨row, ⟨hr, hafter, hex⟩, hp⟩ hnone
        exact ⟨row, mem_selectPatchConflicts.2 ⟨hr, hafter, hpatch, hex⟩, hseq, htouch⟩

/-- Reads that share what each learned are answered as by plain scans, each with the newest
conflict, whatever the reads and their order. -/
theorem shared_scans_exact (s : Store) (reads : List ScannedRead) :
    s.findConflictSeqs [] reads = reads.mapM (fun read =>
        s.directConflictSeq read.doc read.afterSeq read.readPath read.nonRecursive read.exclude) ∧
      ∀ read ∈ reads, ∀ found,
        s.directConflictSeq read.doc read.afterSeq read.readPath read.nonRecursive read.exclude =
          .ok found → s.NewestConflict read found :=
  ⟨findConflictSeqs_eq scansExact_nil reads, fun _ _ _ h => directConflictSeq_newest h⟩

end Store
