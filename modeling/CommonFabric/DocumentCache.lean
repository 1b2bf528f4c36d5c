import CommonFabric.History

/-!
# The document cache

An engine keeps the documents it has decoded, by the place, the op and the length of
the row each was decoded from. A read is served from the cache, or resumes from it, and
what it decodes is kept in turn; a transaction keeps what it reads aside until its rows
are durable. None of this shows in what a read returns.
-/

/-- The length of a row's stored text; -1 of a row with none. -/
abbrev DataLength := RevisionData → Int

structure DocumentCacheKey where
  doc : DocInstance
  seq : Nat
  opIndex : Nat
  op : RevisionOp
  dataLength : Int
  deriving DecidableEq

def documentCacheKey (length : DataLength) (row : RevisionRow) : DocumentCacheKey :=
  ⟨row.doc, row.seq, row.opIndex, row.data.op, length row.data⟩

abbrev DocumentCache := List (DocumentCacheKey × Option EntityDocument)

namespace DocumentCache

def get? (cache : DocumentCache) (key : DocumentCacheKey) : Option (Option EntityDocument) :=
  (cache.find? (·.1 = key)).map (·.2)

def put (cache : DocumentCache) (key : DocumentCacheKey) (document : Option EntityDocument) :
    DocumentCache := (key, document) :: cache.filter (·.1 ≠ key)

/-- `cachedDocumentForRevision`: what is staged comes before what is kept. -/
def cachedDocument (length : DataLength) (staged cache : DocumentCache) : CachedDocument :=
  fun row => (staged ++ cache).get? (documentCacheKey length row)

/-- The staged entries of a transaction that is durable; a key that is kept stays. -/
def publish (staged cache : DocumentCache) : DocumentCache :=
  staged.filter (fun e => (cache.get? e.1).isNone) ++ cache

end DocumentCache

/-- An open engine: the store and the documents it has decoded. -/
structure EngineState where
  store : Store
  documentCache : DocumentCache

namespace EngineState

def cached (length : DataLength) (e : EngineState) : CachedDocument :=
  DocumentCache.cachedDocument length [] e.documentCache

def read (length : DataLength) (e : EngineState) (o : Store.ReadOptions) :
    Except EngineError (Option EntityDocument) := e.store.read (e.cached length) o

def readRevision (length : DataLength) (e : EngineState) (doc : DocInstance) (seq opIndex : Nat) :
    Except EngineError (Option EntityDocument) :=
  e.store.readRevision (e.cached length) doc seq opIndex

end EngineState

namespace Store

/-- A store that the reads of a transaction from `s` to `s'` may see: some of the
transaction's rows are written, each the head of its instance, and once all are, some of
its snapshots. -/
structure Amid (s s' t : Store) : Prop where
  older : s.revisions <+: t.revisions
  newer : t.revisions <+: s'.revisions
  heads : t.HeadsCurrent
  snapshots : ∀ x ∈ t.snapshots,
    x ∈ s.snapshots ∨ t.revisions = s'.revisions ∧ x ∈ s'.snapshots

/-- The entries a transaction may stage: of any reads, over any stores it passes through. -/
inductive Staged (length : DataLength) (s s' : Store) (cache : DocumentCache) :
    DocumentCache → Prop
  | nil : Staged length s s' cache []
  | record {staged : DocumentCache} {t : Store} {doc : DocInstance} {scope : CellScope}
      {seq : Option Nat} {state : EntityState} (h : Staged length s s' cache staged)
      (ht : Amid s s' t)
      (hread : t.readStateForScopeKey (DocumentCache.cachedDocument length staged cache) doc scope
        seq = .ok (some state)) :
      Staged length s s' cache (staged.put (documentCacheKey length state.row) state.document)

end Store

namespace EngineState

open Store

/-- A transaction, a read outside of one, or the loss of entries; a rolled-back
transaction changes nothing. -/
inductive EngineStep (length : DataLength) (opens : Engine → Prop) :
    EngineState → EngineState → Prop
  | transaction {s s' : Store} {cache staged : DocumentCache} (h : Step opens s s')
      (hstaged : Staged length s s' cache staged) :
      EngineStep length opens ⟨s, cache⟩ ⟨s', DocumentCache.publish staged cache⟩
  | read {e : EngineState} {doc : DocInstance} {scope : CellScope} {seq : Option Nat}
      {state : EntityState}
      (h : e.store.readStateForScopeKey (e.cached length) doc scope seq = .ok (some state)) :
      EngineStep length opens e { e with
        documentCache := e.documentCache.put (documentCacheKey length state.row) state.document }
  | evict {s : Store} {cache cache' : DocumentCache} (h : ∀ x ∈ cache', x ∈ cache) :
      EngineStep length opens ⟨s, cache⟩ ⟨s, cache'⟩

/-- An engine opened over the empty store, after any steps. -/
def Reachable (length : DataLength) (opens : Engine → Prop) (e : EngineState) : Prop :=
  Relation.ReflTransGen (EngineStep length opens) ⟨Store.empty, []⟩ e

end EngineState

namespace Store

variable {length : DataLength} {opens : Engine → Prop} {s s' t : Store}
  {cache staged : DocumentCache}

/-- Each entry is what a row of the store decodes to. -/
def EntriesSound (length : DataLength) (s : Store) (cache : DocumentCache) : Prop :=
  ∀ entry ∈ cache, ∃ row ∈ s.revisions, documentCacheKey length row = entry.1 ∧
    replayRows (s.rowsUpTo row.doc row.position) = .ok entry.2

theorem RowsAscending.eq_of_key (hasc : s.RowsAscending) {a b : RevisionRow}
    (ha : a ∈ s.revisions) (hb : b ∈ s.revisions)
    (h : documentCacheKey length a = documentCacheKey length b) : a = b := by
  have hdoc : a.doc = b.doc := congrArg DocumentCacheKey.doc h
  have hseq : a.seq = b.seq := congrArg DocumentCacheKey.seq h
  have hindex : a.opIndex = b.opIndex := congrArg DocumentCacheKey.opIndex h
  have hsel := selectRevisionRow_of_mem hasc (mem_rowsOf.2 ⟨ha, rfl⟩)
  rw [hdoc, hseq, hindex, selectRevisionRow_of_mem hasc (mem_rowsOf.2 ⟨hb, rfl⟩)] at hsel
  exact (Option.some.inj hsel).symm

/-- Entries that are sound of a store give a sound cache of it, and of it with fewer rows. -/
theorem EntriesSound.cacheSound (hasc : s'.RowsAscending) (h : t.revisions <+: s'.revisions)
    (hstaged : s'.EntriesSound length staged) (hcache : s'.EntriesSound length cache) :
    t.CacheSound (DocumentCache.cachedDocument length staged cache) := by
  intro row hrow d hd
  obtain ⟨entry, hfind, rfl⟩ := Option.map_eq_some_iff.1 hd
  have hkey : entry.1 = documentCacheKey length row := by simpa using List.find?_some hfind
  have hentry : ∃ row ∈ s'.revisions, documentCacheKey length row = entry.1 ∧
      replayRows (s'.rowsUpTo row.doc row.position) = .ok entry.2 := by
    rcases List.mem_append.1 (List.mem_of_find?_eq_some hfind) with h | h
    · exact hstaged entry h
    · exact hcache entry h
  obtain ⟨row', hrow', hkey', hreplay⟩ := hentry
  rw [hasc.eq_of_key hrow' (h.subset hrow) (hkey'.trans hkey), rowsUpTo_initial hasc h hrow]
    at hreplay
  exact hreplay

theorem EntriesSound.prefix (hasc : s'.RowsAscending) (h : s.revisions <+: s'.revisions)
    (hcache : s.EntriesSound length cache) : s'.EntriesSound length cache := by
  intro entry hentry
  obtain ⟨row, hrow, hkey, hreplay⟩ := hcache entry hentry
  exact ⟨row, h.subset hrow, hkey, by rw [rowsUpTo_initial hasc h hrow]; exact hreplay⟩

theorem EntriesSound.put (hcache : s.EntriesSound length cache) {row : RevisionRow}
    {document : Option EntityDocument} (hrow : row ∈ s.revisions)
    (hreplay : replayRows (s.rowsUpTo row.doc row.position) = .ok document) :
    s.EntriesSound length (cache.put (documentCacheKey length row) document) := by
  intro entry hentry
  rcases List.mem_cons.1 hentry with rfl | hentry
  · exact ⟨row, hrow, rfl, hreplay⟩
  · exact hcache entry (List.mem_filter.1 hentry).1

/-- What a read decodes, and which row it is of. -/
theorem readStateForScopeKey_spec {cached : CachedDocument} (hasc : t.RowsAscending)
    (hheads : t.HeadsCurrent) (hsnap : t.SnapshotsSound) (hcache : t.CacheSound cached)
    {doc : DocInstance} {scope : CellScope} {seq : Option Nat} {state : EntityState}
    (h : t.readStateForScopeKey cached doc scope seq = .ok (some state)) :
    state.row ∈ t.revisions ∧
      replayRows (t.rowsUpTo state.row.doc state.row.position) = .ok state.document := by
  obtain ⟨hrow, hdocument⟩ := Commit.readStateForScopeKey_ok h
  obtain ⟨hmem, _, _, hlast⟩ := readRowFrom_last hasc hheads hrow
  exact ⟨hmem, by rw [← rowDocument_eq hasc hsnap hcache hmem hlast, hdocument]⟩

section Amid

variable (hs : s.Sound) (hs' : s'.Sound) (hstep : Step opens s s') (ht : Amid s s' t)

include hs' ht in
theorem Amid.ascending : t.RowsAscending := fun doc =>
  List.Pairwise.sublist (ht.newer.sublist.filter _) (hs'.ascending doc)

include hs hs' hstep ht in
theorem Amid.snapshotsSound : t.SnapshotsSound := by
  obtain ⟨rows, hrows, hnew⟩ := hstep.revisions hs
  intro x hx
  rcases ht.snapshots x hx with hx | ⟨hall, hx⟩
  · -- A snapshot taken before the transaction is of a seq before its rows.
    obtain ⟨more, hmore⟩ := ht.older
    have hthrough : t.rowsThrough x.doc x.seq = s.rowsThrough x.doc x.seq := by
      have hsplit : t.rowsOf x.doc = s.rowsOf x.doc ++ more.filter (·.doc = x.doc) := by
        rw [rowsOf, ← hmore, List.filter_append]; rfl
      rw [rowsThrough, rowsThrough, hsplit, List.filter_append, List.append_right_eq_self,
        List.filter_eq_nil_iff]
      intro r hr
      have hr : r ∈ rows := by
        obtain ⟨rest, hrest⟩ := ht.newer
        rw [← hmore, hrows, List.append_assoc] at hrest
        rw [← List.append_cancel_left hrest]
        exact List.mem_append_left _ (List.mem_filter.1 hr).1
      have := hs.snapshot_lt_nextSeq hx
      simp [hnew r hr, this]
    rw [hthrough]
    exact hs.snapshots x hx
  · rw [rowsThrough, rowsOf_of_revisions hall]
    exact hs'.snapshots x hx

include hs hs' hstep in
/-- All that a transaction stages is what rows of the store it leaves decode to. -/
theorem Staged.entriesSound (hcache : s'.EntriesSound length cache)
    (h : Staged length s s' cache staged) : s'.EntriesSound length staged := by
  induction h with
  | nil => intro entry h; cases h
  | record _ ht hread ih =>
    obtain ⟨hmem, hreplay⟩ := readStateForScopeKey_spec (ht.ascending hs') ht.heads
      (ht.snapshotsSound hs hs' hstep) (ih.cacheSound hs'.ascending ht.newer hcache) hread
    rw [← rowsUpTo_initial hs'.ascending ht.newer hmem] at hreplay
    exact ih.put (ht.newer.subset hmem) hreplay

end Amid

end Store

namespace EngineState

open Store

variable {length : DataLength} {opens : Engine → Prop} {e e' : EngineState}

/-- What holds of an open engine: its store is sound, and so are its cache's entries. -/
structure Sound (length : DataLength) (e : EngineState) : Prop where
  store : e.store.Sound
  entries : e.store.EntriesSound length e.documentCache

theorem Sound.cacheSound (h : e.Sound length) : e.store.CacheSound (e.cached length) :=
  EntriesSound.cacheSound h.store.ascending (List.prefix_refl _) (fun _ h => by cases h) h.entries

theorem EngineStep.sound (h : EngineStep length opens e e') (he : e.Sound length) :
    e'.Sound length := by
  cases h with
  | transaction hstep hstaged =>
    have hs' := hstep.sound he.store
    obtain ⟨rows, hrows, _⟩ := hstep.revisions he.store
    have hcache := he.entries.prefix hs'.ascending ⟨rows, hrows.symm⟩
    refine ⟨hs', fun entry hentry => ?_⟩
    rcases List.mem_append.1 hentry with h | h
    · exact hstaged.entriesSound he.store hs' hstep hcache entry (List.mem_filter.1 h).1
    · exact hcache entry h
  | read hread =>
    obtain ⟨hmem, hreplay⟩ := readStateForScopeKey_spec he.store.ascending he.store.heads
      he.store.snapshots he.cacheSound hread
    exact ⟨he.store, he.entries.put hmem hreplay⟩
  | evict hsub => exact ⟨he.store, fun entry hentry => he.entries entry (hsub entry hentry)⟩

theorem Reachable.sound (h : Reachable length opens e) : e.Sound length := by
  induction h with
  | refl => exact ⟨empty_sound, fun _ h => by cases h⟩
  | tail _ hstep ih => exact hstep.sound ih

/-- An engine that has read nothing. -/
theorem Reachable.uncached {s : Store} (h : Store.Reachable opens s) :
    Reachable length opens ⟨s, []⟩ := by
  induction h with
  | refl => exact Relation.ReflTransGen.refl
  | tail _ hstep ih => exact Relation.ReflTransGen.tail ih (.transaction hstep .nil)

/-- The fold of all of an instance's revisions at or before a seq, in their order. -/
def foldThrough (s : Store) (doc : DocInstance) (seq : Nat) :
    Except EngineError (Option EntityDocument) :=
  replayRows (Query.ascending RevisionRow.position ((s.rowsOf doc).filter (·.seq ≤ seq)))

/-- The fold of all of an instance's revisions up to a place, in their order. -/
def foldUpTo (s : Store) (doc : DocInstance) (seq opIndex : Nat) :
    Except EngineError (Option EntityDocument) :=
  replayRows (Query.ascending RevisionRow.position
    ((s.rowsOf doc).filter fun r => r.seq < seq || (r.seq = seq && r.opIndex ≤ opIndex)))

theorem foldThrough_eq {s : Store} (hasc : s.RowsAscending) (doc : DocInstance) (seq : Nat) :
    foldThrough s doc seq = replayRows (s.rowsThrough doc seq) := by
  rw [foldThrough, Query.ascending_eq ((hasc doc).filter _)]
  rfl

theorem foldUpTo_eq {s : Store} (hasc : s.RowsAscending) (row : RevisionRow) :
    foldUpTo s row.doc row.seq row.opIndex = replayRows (s.rowsUpTo row.doc row.position) := by
  rw [foldUpTo, Query.ascending_eq ((hasc row.doc).filter _), rowsUpTo]
  congr 1
  apply List.filter_congr
  intro r _
  rw [Bool.eq_iff_iff]
  simp only [Bool.or_eq_true, Bool.and_eq_true, decide_eq_true_eq, RevisionRow.position_le_iff]

theorem read_eq_readDocument {s : Store} {cached : CachedDocument} {o : ReadOptions}
    {scope : CellScope} {key : ScopeKey} (hkey : o.resolve = .ok (scope, key)) :
    s.read cached o = s.readDocument cached ⟨o.branch, o.id, key⟩ o.seq := by
  simp only [Store.read, readState, hkey, Except.ok_bind, readStateForScopeKey, readDocument]
  cases s.readRowForBranch ⟨o.branch, o.id, key⟩ o.seq with
  | error e => rfl
  | ok row => cases row with
    | none => rfl
    | some row =>
      simp only [Except.ok_bind]
      cases s.rowDocument cached row <;> rfl

/-- The document a row produces is the replay of the rows up to it. -/
theorem readRevision_eq {s : Store} {cached : CachedDocument} (hs : s.RowsSound)
    (hcache : s.CacheSound cached) {row : RevisionRow} (hrow : row ∈ s.revisions) :
    s.readRevision cached row.doc row.seq row.opIndex =
      replayRows (s.rowsUpTo row.doc row.position) := by
  obtain ⟨older, holder⟩ := rowsUpTo_concat hs.ascending hrow
  simp only [Store.readRevision,
    selectRevisionRow_of_mem hs.ascending (mem_rowsOf.2 ⟨hrow, rfl⟩)]
  split
  · rename_i d hd; rw [holder, replayRows_concat_set _ _ hd]
  · rename_i hd; rw [holder, replayRows_concat_delete _ _ hd]
  · rename_i ps hd
    exact reconstruct_eq hs.ascending hs.snapshots hcache hrow (by rw [hd]; rfl) (.inl rfl)

/-- Whatever snapshots and cached documents an engine holds, a read of branch-local
history and a read of one revision return the fold of the instance's revisions. -/
theorem reconstruction_is_fold (h : Reachable length opens e) :
    (∀ (o : ReadOptions) (scope : CellScope) (key : ScopeKey) (state : BranchState),
      o.resolve = .ok (scope, key) → e.store.selectBranch o.branch = some state →
      InRange state (o.seq.getD state.headSeq) →
      e.store.BranchLocal ⟨o.branch, o.id, key⟩ state (o.seq.getD state.headSeq) →
      e.read length o = foldThrough e.store ⟨o.branch, o.id, key⟩ (o.seq.getD state.headSeq)) ∧
    ∀ row ∈ e.store.revisions, e.readRevision length row.doc row.seq row.opIndex =
      foldUpTo e.store row.doc row.seq row.opIndex := by
  have he := h.sound
  constructor
  · intro o scope key state hkey hb hrange hlocal
    rw [EngineState.read, read_eq_readDocument hkey, foldThrough_eq he.store.ascending]
    exact readDocument_eq he.store he.cacheSound hb o.seq hrange hlocal
  · intro row hrow
    rw [foldUpTo_eq he.store.ascending]
    exact readRevision_eq he.store.toRowsSound he.cacheSound hrow

/-- A document set, patched, and then patched by two operations of one commit. -/
def patchedHistory : List ApplyCommitOptions :=
  [.authored "s" (.ofOperations 1 [.set "of:d" none ⟨[("value", .record [("a", .null)])]⟩]),
   .authored "s" (.ofOperations 2 [.patch "of:d" none [.replace "/value/a" (.bool true)]]),
   .authored "s" (.ofOperations 3 [.patch "of:d" none [.add "/value/b" .null],
     .patch "of:d" none [.remove "/value/a"]])]

def patchedStore : Store := storeAfter (bareEngine 1 1) patchedHistory

/-- The row of the second commit and what it decodes to. -/
def patchedState : EntityState where
  row := ⟨⟨DEFAULT_BRANCH, "of:d", DEFAULT_SCOPE_KEY⟩, 2, 0,
    .patch [.replace "/value/a" (.bool true)], 2⟩
  scope := .space
  document := some ⟨[("value", .record [("a", .bool true)])]⟩

/-- The engine once the document was read at the second commit. -/
def patchedEngine : EngineState :=
  ⟨patchedStore, DocumentCache.put [] (documentCacheKey (fun _ => 0) patchedState.row)
    patchedState.document⟩

theorem patchedEngine_reachable : Reachable (fun _ => 0) (fun _ => True) patchedEngine := by
  have hstore : Later (fun _ => True) .empty patchedStore :=
    .of_applyCommits (e := bareEngine 1 1) trivial patchedHistory (by decide +kernel)
  have hread : patchedStore.readStateForScopeKey (EngineState.cached (fun _ => 0) ⟨patchedStore, []⟩)
      patchedState.row.doc patchedState.scope (some 2) = .ok (some patchedState) := by
    decide +kernel
  exact .tail (Reachable.uncached hstore) (.read hread)

theorem reconstruction_is_fold_patched :
    patchedEngine.read (fun _ => 0) ⟨"of:d", none, ⟨none, none⟩, DEFAULT_BRANCH, none, none⟩ =
        foldThrough patchedStore ⟨DEFAULT_BRANCH, "of:d", DEFAULT_SCOPE_KEY⟩ 3 ∧
      patchedEngine.readRevision (fun _ => 0) ⟨DEFAULT_BRANCH, "of:d", DEFAULT_SCOPE_KEY⟩ 3 0 =
        foldUpTo patchedStore ⟨DEFAULT_BRANCH, "of:d", DEFAULT_SCOPE_KEY⟩ 3 0 :=
  have h := reconstruction_is_fold patchedEngine_reachable
  ⟨h.1 ⟨"of:d", none, ⟨none, none⟩, DEFAULT_BRANCH, none, none⟩ .space DEFAULT_SCOPE_KEY
      ⟨DEFAULT_BRANCH, none, none, 0, 3, true⟩ (by decide) (by decide +kernel) (by decide)
      (by decide +kernel),
    h.2 ⟨⟨DEFAULT_BRANCH, "of:d", DEFAULT_SCOPE_KEY⟩, 3, 0, .patch [.add "/value/b" .null], 3⟩
      (by decide +kernel)⟩

end EngineState
