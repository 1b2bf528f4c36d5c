import CommonFabric.ReadCoherence

/-!
# What the handlers of an accepted wave have read

A wave is accepted where no other writer has changed what its handlers read: each of their rows
since is a patch that does not touch the read, or one that appends at the tail of a stream's entries,
of which the handler read one that was there. What it read is then what the document holds.
-/

namespace Wave

open Store Patch

variable {s : Store} {w : WaveOptions} {read : WaveHandlerRead} {row : RevisionRow}
  {rows : List RevisionRow} {op : PatchOp} {ops : List PatchOp} {path : ValuePath}
  {nonRecursive held : Bool} {commutes : PatchOp → Except EngineError Bool}

theorem dropCommuting_ok {kept : List PatchOp} (h : dropCommuting commutes ops = .ok kept)
    (hop : op ∈ ops) : commutes op = .ok true ∨ op ∈ kept := by
  induction ops generalizing kept with
  | nil => cases hop
  | cons first rest ih =>
    obtain ⟨commuted, hcommuted, h⟩ := Except.bind_ok_iff.1 h
    cases commuted with
    | true =>
      rcases List.mem_cons.1 hop with rfl | hop
      · exact .inl hcommuted
      · exact ih h hop
    | false =>
      obtain ⟨more, hmore, h⟩ := Except.bind_ok_iff.1 h
      cases h
      rcases List.mem_cons.1 hop with rfl | hop
      · exact .inr List.mem_cons_self
      · exact (ih hmore hop).imp_right (List.mem_cons_of_mem _)

theorem patchOverlaps_false (h : patchOverlaps path nonRecursive ops = .ok false) (hop : op ∈ ops) :
    OpClear op path nonRecursive := by
  induction ops with
  | nil => cases hop
  | cons first rest ih =>
    obtain ⟨leaves, hleaves, h⟩ := Except.bind_ok_iff.1 h
    split at h
    · cases h
    · rename_i htouch
      rcases List.mem_cons.1 hop with rfl | hop
      · exact ⟨leaves, liftPatch_ok_iff.1 hleaves, by simpa using htouch⟩
      · exact ih h hop

theorem staleSeqOf_none (h : staleSeqOf path nonRecursive commutes rows = .ok none)
    (hrow : row ∈ rows) : row.data.isPatch = true ∧
      ∀ op ∈ storedPatchList row, commutes op = .ok true ∨ OpClear op path nonRecursive := by
  induction rows with
  | nil => cases hrow
  | cons first rest ih =>
    rw [staleSeqOf] at h
    split at h
    · rename_i patches hdata
      obtain ⟨kept, hkept, h⟩ := Except.bind_ok_iff.1 h
      obtain ⟨overlaps, hoverlaps, h⟩ := Except.bind_ok_iff.1 h
      cases overlaps with
      | true => cases h
      | false =>
        rcases List.mem_cons.1 hrow with rfl | hrow
        · refine ⟨by rw [hdata]; rfl, fun op hop => ?_⟩
          rw [storedPatchList, hdata] at hop
          exact (dropCommuting_ok hkept hop).imp_right (patchOverlaps_false hoverlaps)
        · exact ih h hrow
    · cases h

theorem mem_rowsAfterRead {doc : DocInstance} {seq : Nat} {holder : Option JsString} :
    row ∈ rowsAfterRead s doc seq holder ↔ row ∈ s.rowsAfter doc seq ∧
      (s.selectCommit row.commitSeq).any (notHoldersOwnDerivedCommit holder) = true := by
  rw [rowsAfterRead, Query.descending, List.mem_reverse, Query.ascending, List.mem_insertionSort,
    rowsAfter, List.mem_filter, List.mem_filter]
  simp [and_assoc]

/-- A document whose head has not passed a seq has no row after it. -/
theorem rowsAfter_of_head (hs : s.Sound) {doc : DocInstance} {seq : Nat}
    (h : selectDocHead s doc ≤ seq) : s.rowsAfter doc seq = [] := by
  rw [rowsAfter, List.filter_eq_nil_iff]
  intro row hrow
  cases hlast : (s.rowsOf doc).getLast? with
  | none => rw [List.getLast?_eq_none_iff.1 hlast] at hrow; cases hrow
  | some last =>
    rw [selectDocHead, hs.heads doc, hlast] at h
    have hle : row.seq ≤ last.seq := RevisionRow.seq_le_of_position_le
      (Query.le_newest ((Query.newest_eq_getLast? (hs.ascending doc)).trans hlast) hrow)
    have : last.seq ≤ seq := h
    simp only [decide_eq_true_eq]
    omega

/-- The rows of other writers since a read are clear of it, or append beside an entry it read. -/
theorem findHandlerStaleReadSeq_none (hs : s.Sound) {branch : BranchName} {holder : Option JsString}
    (h : findHandlerStaleReadSeq s branch holder read = .ok none)
    (hheld : readHeldEntry s branch read = .ok held)
    (hrow : row ∈ s.rowsAfter ⟨branch, read.id, read.scopeKey⟩ read.seq)
    (hother : (s.selectCommit row.commitSeq).any (notHoldersOwnDerivedCommit holder) = true) :
    row.data.isPatch = true ∧ ∀ op ∈ storedPatchList row,
      held = true ∧ isStreamTailAppend op = .ok true ∨ OpClear op read.path read.nonRecursive := by
  rw [findHandlerStaleReadSeq] at h
  split at h
  · rename_i hhead
    rw [rowsAfter_of_head hs hhead] at hrow
    cases hrow
  · rw [hheld, Except.ok_bind] at h
    obtain ⟨hpatch, hops⟩ := staleSeqOf_none h (mem_rowsAfterRead.2 ⟨hrow, hother⟩)
    refine ⟨hpatch, fun op hop => (hops op hop).imp_left fun hcommutes => ?_⟩
    cases held with
    | true => exact ⟨rfl, hcommutes⟩
    | false => cases hcommutes

theorem checkHandlerReads_ok (h : checkHandlerReads s w = .ok ()) {reads : HandlerReads}
    (hreads : reads ∈ w.waveBasis.handlerReads) (hread : read ∈ reads.reads) :
    findHandlerStaleReadSeq s w.apply.branch w.apply.holder read = .ok none := by
  obtain ⟨stale, hstale, h⟩ := Except.bind_ok_iff.1 h
  simp only [require_ok_iff, decide_eq_true_eq, List.flatten_eq_nil_iff] at h
  obtain ⟨found, hfound, hof⟩ := List.mapM_ok_exists hstale hreads
  obtain ⟨all, hall, hof⟩ := Except.bind_ok_iff.1 hof
  cases hof
  obtain ⟨index, hindex⟩ := List.mem_iff_getElem?.1 hread
  obtain ⟨one, hone, hof⟩ := List.mapM_ok_exists hall
    (List.mem_zipIdx_iff_getElem?.2 (show reads.reads[(read, index).2]? = some read from hindex))
  obtain ⟨seq?, hseq, hof⟩ := Except.bind_ok_iff.1 hof
  cases hof
  cases seq? with
  | none => exact hseq
  | some seq =>
    have hnil := h _ hfound
    have := (List.filterMap_eq_nil_iff.1 hnil) _ hone
    cases this

/-- Where the entries of a stream stand in its sidecar. -/
def entriesPath : ValuePath := ["value", "entries"]

/-- An array that is extended at its tail keeps what stands in it. -/
theorem tailAtPath_stands {root root' x : FabricValue} {q r : ValuePath} {k name : JsString}
    {more : Slots → Slots} (h : tailAtPath root q name (fun slots => slots ++ more slots) = .ok root')
    (hx : valueAt root (q ++ k :: r) = some x) : valueAt root' (q ++ k :: r) = some x := by
  obtain ⟨-, h⟩ := Except.check_ok_iff.1 h
  split at h
  · rename_i hundefined
    rw [valueAt_append, hundefined.2] at hx
    cases hx
  · obtain ⟨c, c', hf, _, hold, hnew⟩ := editSpine_children h
    rw [hold] at hx
    rw [hnew]
    cases c with
    | array slots =>
      cases hf
      cases hindex : arrayIndex? k with
      | none => rw [valueAt_cons, child, hindex] at hx; cases hx
      | some i =>
        rw [valueAt_cons, child_array hindex] at hx ⊢
        obtain ⟨y, hy, hx⟩ := Option.bind_eq_some_iff.1 hx
        have hlt : i < slots.length := by
          by_contra hge
          rw [List.getElem?_eq_none (by omega)] at hy
          cases hy
        rw [List.getElem?_append_left hlt, hy]
        exact hx
    | _ => cases hf

theorem isStreamTailAppend_leaves (hop : isStreamTailAppend op = .ok true) {k : JsString}
    {r : ValuePath} {x : Option FabricValue} (hx : x.isSome = true) :
    op.LeavesAt (entriesPath ++ k :: r) x := by
  intro v v' h _ hv
  obtain ⟨x, rfl⟩ := Option.isSome_iff_exists.1 hx
  cases op with
  | append pointer values _ | addUnique pointer values _ =>
    obtain ⟨q, hq, hop⟩ := Except.bind_ok_iff.1 hop
    obtain rfl : q = entriesPath := by simpa [entriesPath] using hop
    rw [liftPatch_ok_iff] at hq
    obtain ⟨q', hq', h⟩ := Except.bind_ok_iff.1 h
    rw [hq] at hq'
    cases hq'
    exact tailAtPath_stands h hv
  | _ => cases hop

theorem readHeldEntry_path {branch : BranchName} (h : readHeldEntry s branch read = .ok true) :
    ∃ k r, read.path = entriesPath ++ k :: r := by
  rw [readHeldEntry] at h
  split at h
  · rename_i hindex
    rw [streamEntryIndexOf] at hindex
    split at hindex
    · split at hindex
      · rename_i first second index rest hpath
        split at hindex
        · rename_i hnames
          simp only [Bool.and_eq_true, decide_eq_true_eq] at hnames
          exact ⟨index, rest, by rw [hpath, hnames.1, hnames.2]; rfl⟩
        · cases hindex
      · cases hindex
    · cases hindex
  · cases h

/-- What a handler of an accepted wave read at its seq is what the document holds as the wave is
applied, where no row since is of the lease holder's own derived commits. -/
theorem handler_reads_coherent {opens : Engine → Prop} {e : Engine} {s' : Store} {r : AppliedCommit}
    (hreach : Reachable opens s) (h : applyWaveTransaction e s w = .ok (s', r))
    {reads : HandlerReads} (hreads : reads ∈ w.waveBasis.handlerReads) (hread : read ∈ reads.reads)
    (hrecursive : read.nonRecursive = false) {doc : DocInstance}
    (hdoc : doc = ⟨w.apply.branch, read.id, read.scopeKey⟩) (hgoes : s.GoesOn doc read.seq)
    (hothers : ∀ row ∈ s.rowsAfter doc read.seq,
      (s.selectCommit row.commitSeq).any (notHoldersOwnDerivedCommit w.apply.holder) = true)
    {before now : Option EntityDocument} (hbefore : s.documentAt doc (some read.seq) = .ok before)
    (hnow : s.documentAt doc none = .ok now)
    (hkeep : rowsKeepElements (.ok before) (s.rowsAfter doc read.seq) = true)
    (hheld : readHeldEntry s w.apply.branch read = .ok held)
    (hentry : held = true → (documentValueAt before read.path).isSome = true) :
    documentValueAt now read.path = documentValueAt before read.path := by
  subst hdoc
  have hs := hreach.sound
  obtain ⟨_, hcheck, _⟩ := applyWaveTransaction_ok h
  have hfresh := checkHandlerReads_ok hcheck hreads hread
  rw [documentAt_since hs hgoes hbefore] at hnow
  refine replay_leavesAt (fun row hrow => ?_) (.ok before) (fun d hd => by cases hd; rfl) hkeep now
    hnow
  have hrows := findHandlerStaleReadSeq_none hs hfresh hheld hrow (hothers row hrow)
  refine ⟨hrows.1, fun op hop => ?_⟩
  rcases hrows.2 op hop with ⟨rfl, happend⟩ | hclear
  · obtain ⟨k, rest, hpath⟩ := readHeldEntry_path hheld
    rw [hpath] at hentry ⊢
    exact isStreamTailAppend_leaves happend (hentry rfl)
  · rw [hrecursive] at hclear
    exact hclear.leavesAt _

def leasedEngine : Engine := { bareEngine 0 0 with holderOf := fun _ => some "s" }

/-- An event of a stream. -/
def streamEvent (eventId : JsString) : FabricValue :=
  .record [("eventId", .string eventId),
    ("stream", .record [("id", .string "of:s"), ("path", .array [])])]

def entriesDoc : EntityId := streamEntriesDocId leasedEngine.hashing "of:s" [] none

/-- A commit that declares the event it appends. -/
def appending (sessionId : SessionId) (eventId : JsString) (operation : Operation) :
    ApplyCommitOptions :=
  { ApplyCommitOptions.authored sessionId { ClientCommit.ofOperations 2 [operation] with
      eventAppends := [⟨entriesDoc, none, eventId⟩] } with principal := some "did:key:alice" }

/-- One session makes a document and a stream; another replaces a member of the one and appends
to the other. -/
def streamHistory : List ApplyCommitOptions :=
  Commit.foreignPatch ⟨[("value", .record [("a", .null), ("b", .null)])]⟩
      [.replace "/value/b" (.bool true)] ++
    [appending "s" "e1" (.set entriesDoc none
      ⟨[("value", .record [("entries", .array [some (streamEvent "e1")])])]⟩),
    appending "t" "e2" (.patch entriesDoc none [.append "/value/entries" [streamEvent "e2"] false])]

def streamStore : Store := storeAfter leasedEngine streamHistory

/-- What the store shows of an instance on the default branch. -/
def shown (id : EntityId) (seq : Option Nat) : Option EntityDocument :=
  (streamStore.documentAt ⟨DEFAULT_BRANCH, id, DEFAULT_SCOPE_KEY⟩ seq).toOption.join

def memberRead : WaveHandlerRead := ⟨"of:d", DEFAULT_SCOPE_KEY, ["value", "a"], 1, false⟩

def entryRead : WaveHandlerRead :=
  ⟨entriesDoc, DEFAULT_SCOPE_KEY, ["value", "entries", "0", "eventId"], 3, false⟩

/-- The wave of a lease holder whose handler read the other member and the first event. -/
def siblingWave : WaveOptions where
  apply := { ApplyCommitOptions.authored "s" (.ofOperations 3 [.set "of:e" none ⟨[]⟩]) with
    commitClass := .derived, space := some "did:key:z", holder := some "s" }
  waveBasis := ⟨4, [], [⟨0, [memberRead, entryRead]⟩]⟩
  basisInstances := []
  outboxAppends := []

/-- Both documents have changed since, and neither at what the handler read. -/
theorem handler_reads_coherent_sibling :
    (shown "of:d" none ≠ shown "of:d" (some 1) ∧
      documentValueAt (shown "of:d" none) memberRead.path =
        documentValueAt (shown "of:d" (some 1)) memberRead.path) ∧
    shown entriesDoc none ≠ shown entriesDoc (some 3) ∧
      documentValueAt (shown entriesDoc none) entryRead.path =
        documentValueAt (shown entriesDoc (some 3)) entryRead.path := by
  have hreach : Reachable (fun _ => True) streamStore :=
    Later.of_applyCommits (e := leasedEngine) trivial streamHistory (by decide +kernel)
  have hfacts : (applyWaveTransaction leasedEngine streamStore siblingWave).isOk = true ∧
      ∀ read ∈ [(memberRead, false), (entryRead, true)],
        let doc : DocInstance := ⟨DEFAULT_BRANCH, read.1.id, read.1.scopeKey⟩
        let before := shown read.1.id (some read.1.seq)
        shown read.1.id none ≠ before ∧
          streamStore.documentAt doc (some read.1.seq) = .ok before ∧
          streamStore.documentAt doc none = .ok (shown read.1.id none) ∧
          streamStore.GoesOn doc read.1.seq ∧
          (∀ row ∈ streamStore.rowsAfter doc read.1.seq,
            (streamStore.selectCommit row.commitSeq).any
              (notHoldersOwnDerivedCommit siblingWave.apply.holder) = true) ∧
          rowsKeepElements (.ok before) (streamStore.rowsAfter doc read.1.seq) = true ∧
          readHeldEntry streamStore DEFAULT_BRANCH read.1 = .ok read.2 ∧
          (documentValueAt before read.1.path).isSome = true := by decide +kernel
  obtain ⟨hok, hreads⟩ := hfacts
  cases haccepted : applyWaveTransaction leasedEngine streamStore siblingWave with
  | error err => rw [haccepted] at hok; cases hok
  | ok accepted =>
    obtain ⟨hne, hbefore, hnow, hgoes, hothers, hkeep, hheld, hsome⟩ :=
      hreads _ List.mem_cons_self
    obtain ⟨hne', hbefore', hnow', hgoes', hothers', hkeep', hheld', hsome'⟩ :=
      hreads _ (List.mem_cons_of_mem _ List.mem_cons_self)
    exact ⟨⟨hne, handler_reads_coherent hreach haccepted List.mem_cons_self List.mem_cons_self rfl
        rfl hgoes hothers hbefore hnow hkeep hheld fun _ => hsome⟩,
      hne', handler_reads_coherent hreach haccepted List.mem_cons_self
        (List.mem_cons_of_mem _ List.mem_cons_self) rfl rfl hgoes' hothers' hbefore' hnow' hkeep'
        hheld' fun _ => hsome'⟩

end Wave
