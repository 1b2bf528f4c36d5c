import CommonFabric.AppendOutbox

/-!
# What the drains of an outbox deliver

A drain's rows stand first in the table until it deletes them, so that a row is sent when no
earlier one is held, and accepted after every earlier one that is. What a row needs before
it is deleted is a fact of the trace, and the rows held are those inserted and not deleted.
-/

namespace AppendOutbox

def Event.insertion : Event → Option Row
  | .inserted row => some row
  | _ => none

def Event.removal : Event → Option Row
  | .removed row => some row
  | _ => none

def insertedRows (trace : List Event) : List Row := trace.filterMap Event.insertion

def removedRows (trace : List Event) : List Row := trace.filterMap Event.removal

/-- The rows the targets accepted from here, in order. -/
def acceptedRows (s : State) : List Row := s.accepted.filterMap (·.row)

theorem mem_insertedRows {trace : List Event} {row : Row} :
    row ∈ insertedRows trace ↔ .inserted row ∈ trace := by
  rw [insertedRows, List.mem_filterMap]
  constructor
  · rintro ⟨event, hmem, hevent⟩
    cases event <;> cases hevent
    exact hmem
  · exact fun h => ⟨_, h, rfl⟩

theorem mem_removedRows {trace : List Event} {row : Row} :
    row ∈ removedRows trace ↔ .removed row ∈ trace := by
  rw [removedRows, List.mem_filterMap]
  constructor
  · rintro ⟨event, hmem, hevent⟩
    cases event <;> cases hevent
    exact hmem
  · exact fun h => ⟨_, h, rfl⟩

/-- What is seen before an event: no earlier row is held when one is sent, and a row that is
deleted was processed, or refused with its notice dealt with. -/
def Needs (before : List Event) : Event → Prop
  | .sent row _ => ∀ other, .inserted other ∈ before → other.branch = DEFAULT_BRANCH →
      other.serial < row.serial → .removed other ∈ before
  | .removed row => (∃ deduped, .processed row deduped ∈ before) ∨
      ∃ reason notice, .refused row reason ∈ before ∧ .noticed row notice ∈ before
  | _ => True

/-- The rows of a drain stand first of those it could deliver. -/
def StandFirst (s : State) (rows : List Row) : Prop :=
  ∃ later, selectPendingExecutionOutboxRows s.table = rows ++ later

/-- What is true of the row a drain is at. -/
def Standing (s : State) (trace : List Event) : Prop :=
  match s.drain with
  | .none => True
  | .ready rows => StandFirst s rows
  | .sending row rest processed =>
    StandFirst s (row :: rest) ∧ (processed = true → ∃ deduped, .processed row deduped ∈ trace)
  | .acknowledged row rest => StandFirst s (row :: rest) ∧ ∃ deduped, .processed row deduped ∈ trace
  | .refused row rest reason => StandFirst s (row :: rest) ∧ .refused row reason ∈ trace
  | .noticed row rest => StandFirst s (row :: rest) ∧
      ∃ reason notice, .refused row reason ∈ trace ∧ .noticed row notice ∈ trace

/-- A drain that was not touched stands where it did, in a longer trace. -/
theorem Standing.mono {s s' : State} {trace trace' : List Event} (h : Standing s trace)
    (hdrain : s'.drain = s.drain) (hfirst : ∀ rows, StandFirst s rows → StandFirst s' rows)
    (htrace : trace ⊆ trace') : Standing s' trace' := by
  unfold Standing at h ⊢
  rw [hdrain]
  split
  · trivial
  · rename_i rows hrows
    rw [hrows] at h
    exact hfirst rows h
  · rename_i row rest processed hrows
    rw [hrows] at h
    exact ⟨hfirst _ h.1, fun hp => (h.2 hp).imp fun _ hmem => htrace hmem⟩
  · rename_i row rest hrows
    rw [hrows] at h
    exact ⟨hfirst _ h.1, h.2.imp fun _ hmem => htrace hmem⟩
  · rename_i row rest reason hrows
    rw [hrows] at h
    exact ⟨hfirst _ h.1, htrace h.2⟩
  · rename_i row rest hrows
    rw [hrows] at h
    obtain ⟨reason, notice, hrefused, hnoticed⟩ := h.2
    exact ⟨hfirst _ h.1, reason, notice, htrace hrefused, htrace hnoticed⟩

structure Kept (s : State) (trace : List Event) : Prop where
  ascending : (insertedRows trace).Pairwise fun a b => a.serial < b.serial
  fresh : ∀ row ∈ insertedRows trace, row.serial < s.inserted
  table : s.table = (insertedRows trace).filter fun row => row ∉ removedRows trace
  removed : ∀ row ∈ removedRows trace, row ∈ insertedRows trace
  keys : s.table.Pairwise fun a b => a.rowId < b.rowId
  standing : Standing s trace
  preceded : Trace.Preceded Needs trace
  accepted : (acceptedRows s).Pairwise fun a b => a.serial < b.serial
  first : ∀ row ∈ acceptedRows s, row ∈ insertedRows trace ∧
    isAccepted s.accepted row.toOutboxAppendRow = true ∧
      ∀ held ∈ selectPendingExecutionOutboxRows s.table, row.serial ≤ held.serial
  processed : ∀ row deduped, .processed row deduped ∈ trace →
    isAccepted s.accepted row.toOutboxAppendRow = true

namespace Kept

variable {s s' : State} {trace events : List Event}

theorem removedRows_append : removedRows (trace ++ events) = removedRows trace ++ removedRows events :=
  List.filterMap_append

theorem insertedRows_append :
    insertedRows (trace ++ events) = insertedRows trace ++ insertedRows events :=
  List.filterMap_append

/-- A step that inserts, accepts and deletes nothing. -/
theorem extend (h : Kept s trace) (hinserted : insertedRows events = [])
    (hremoved : removedRows events = []) (htable : s'.table = s.table)
    (hcount : s'.inserted = s.inserted) (haccepted : s'.accepted = s.accepted)
    (hstanding : Standing s' (trace ++ events)) (hpreceded : Trace.Preceded Needs (trace ++ events))
    (hprocessed : ∀ row deduped, .processed row deduped ∈ events →
      isAccepted s.accepted row.toOutboxAppendRow = true) : Kept s' (trace ++ events) where
  ascending := by
    rw [insertedRows_append, hinserted, List.append_nil]
    exact h.ascending
  fresh := by
    rw [insertedRows_append, hinserted, List.append_nil, hcount]
    exact h.fresh
  table := by
    rw [insertedRows_append, hinserted, List.append_nil, removedRows_append, hremoved,
      List.append_nil, htable]
    exact h.table
  removed row hrow := by
    rw [removedRows_append, hremoved, List.append_nil] at hrow
    rw [insertedRows_append, hinserted, List.append_nil]
    exact h.removed row hrow
  keys := htable ▸ h.keys
  standing := hstanding
  preceded := hpreceded
  accepted := by
    rw [acceptedRows, haccepted]
    exact h.accepted
  first row hrow := by
    rw [acceptedRows, haccepted] at hrow
    rw [insertedRows_append, hinserted, List.append_nil, htable, haccepted]
    exact h.first row hrow
  processed row deduped hmem := by
    rw [haccepted]
    rcases List.mem_append.1 hmem with hmem | hmem
    · exact h.processed row deduped hmem
    · exact hprocessed row deduped hmem

/-- Nothing is seen. -/
theorem quiet (h : Kept s trace) (htable : s'.table = s.table) (hcount : s'.inserted = s.inserted)
    (haccepted : s'.accepted = s.accepted) (hstanding : Standing s' trace) : Kept s' trace := by
  have hnone : ∀ row deduped, .processed row deduped ∈ ([] : List Event) →
      isAccepted s.accepted row.toOutboxAppendRow = true := by simp
  suffices hkept : Kept s' (trace ++ []) by simpa using hkept
  exact h.extend rfl rfl htable hcount haccepted (by simpa using hstanding)
    (by simpa using h.preceded) hnone

/-- The drain stops. -/
theorem stopped (h : Kept s trace) : Kept { s with drain := .none } trace :=
  h.quiet rfl rfl rfl trivial

variable {row : Row} {rest : List Row}

theorem mem_table (h : Kept s trace) :
    row ∈ s.table ↔ row ∈ insertedRows trace ∧ row ∉ removedRows trace := by
  rw [h.table, List.mem_filter, decide_eq_true_eq]

theorem eq_of_serial (h : Kept s trace) {a b : Row} (ha : a ∈ insertedRows trace)
    (hb : b ∈ insertedRows trace) (hserial : a.serial = b.serial) : a = b := by
  have hnodup : ((insertedRows trace).map (·.serial)).Nodup := by
    rw [List.Nodup, List.pairwise_map]
    exact h.ascending.imp Nat.ne_of_lt
  exact List.inj_on_of_nodup_map hnodup ha hb hserial

theorem eq_of_key (h : Kept s trace) {a b : Row} (ha : a ∈ s.table) (hb : b ∈ s.table)
    (hkey : a.rowId = b.rowId) : a = b := by
  have hnodup : (s.table.map (·.rowId)).Nodup := by
    rw [List.Nodup, List.pairwise_map]
    exact h.keys.imp Nat.ne_of_lt
  exact List.inj_on_of_nodup_map hnodup ha hb hkey

/-- The row a drain is at is the earliest it could deliver. -/
theorem least (h : Kept s trace) (hfirst : StandFirst s (row :: rest)) :
    row ∈ s.table ∧ ∀ held ∈ selectPendingExecutionOutboxRows s.table, row.serial ≤ held.serial := by
  obtain ⟨later, hselect⟩ := hfirst
  have hsorted : (selectPendingExecutionOutboxRows s.table).Pairwise fun a b => a.serial < b.serial := by
    rw [selectPendingExecutionOutboxRows, h.table]
    exact (h.ascending.filter _).filter _
  have hmem : row ∈ selectPendingExecutionOutboxRows s.table := by simp [hselect]
  refine ⟨List.mem_of_mem_filter hmem, fun held hheld => ?_⟩
  rw [hselect, List.cons_append] at hsorted hheld
  rcases List.mem_cons.1 hheld with rfl | hheld
  · exact Nat.le_refl _
  · exact Nat.le_of_lt ((List.pairwise_cons.1 hsorted).1 held hheld)

theorem rowId_lt_nextRowId {table : List Row} (h : row ∈ table) :
    row.rowId < nextRowId table := by
  have hfold (rows : List Row) (n : Nat) :
      n ≤ rows.foldl (fun n row => max n (row.rowId + 1)) n ∧
        ∀ row ∈ rows, row.rowId < rows.foldl (fun n row => max n (row.rowId + 1)) n := by
    induction rows generalizing n with
    | nil => exact ⟨Nat.le_refl _, by simp⟩
    | cons x rows ih =>
      obtain ⟨hle, hlt⟩ := ih (max n (x.rowId + 1))
      rw [List.foldl_cons]
      refine ⟨by omega, fun row hrow => ?_⟩
      rcases List.mem_cons.1 hrow with rfl | hrow
      · omega
      · exact hlt row hrow
  exact (hfold table 1).2 row h

/-- A row is inserted, behind those that are there. -/
theorem insert (h : Kept s trace) (branch : BranchName) (createdSeq : Nat)
    (append : OutboxAppendRow) :
    Kept (addRow (rowFor branch createdSeq append s) s)
      (trace ++ [.inserted (rowFor branch createdSeq append s)]) := by
  generalize hrow : rowFor branch createdSeq append s = row
  have hserial : row.serial = s.inserted := hrow ▸ rfl
  have hkey : row.rowId = nextRowId s.table := hrow ▸ rfl
  have hinserted : insertedRows (trace ++ [.inserted row]) = insertedRows trace ++ [row] :=
    insertedRows_append
  have hremoved : removedRows (trace ++ [.inserted row]) = removedRows trace :=
    removedRows_append.trans (List.append_nil _)
  have hnew : row ∉ insertedRows trace := fun hmem => by
    have := h.fresh row hmem
    omega
  have hselect : selectPendingExecutionOutboxRows (s.table ++ [row]) =
      selectPendingExecutionOutboxRows s.table ++ selectPendingExecutionOutboxRows [row] :=
    List.filter_append ..
  refine ⟨?_, fun other hother => ?_, ?_, fun other hother => ?_, ?_, ?_, h.preceded.snoc trivial,
    h.accepted, fun other hother => ?_, fun other deduped hmem => ?_⟩
  · rw [hinserted, List.pairwise_append]
    refine ⟨h.ascending, List.pairwise_singleton _ _, fun a ha b hb => ?_⟩
    rw [List.mem_singleton.1 hb, hserial]
    exact h.fresh a ha
  · rw [hinserted] at hother
    show other.serial < s.inserted + 1
    rcases List.mem_append.1 hother with hother | hother
    · exact Nat.lt_succ_of_lt (h.fresh other hother)
    · rw [List.mem_singleton.1 hother, hserial]
      exact Nat.lt_succ_self _
  · have hstays : row ∉ removedRows trace := fun hmem => hnew (h.removed row hmem)
    show s.table ++ [row] = _
    rw [hinserted, hremoved, List.filter_append, ← h.table,
      List.filter_cons_of_pos (by simpa using hstays)]
    rfl
  · rw [hremoved] at hother
    rw [hinserted]
    exact List.mem_append_left _ (h.removed other hother)
  · show (s.table ++ [row]).Pairwise _
    rw [List.pairwise_append]
    refine ⟨h.keys, List.pairwise_singleton _ _, fun a ha b hb => ?_⟩
    rw [List.mem_singleton.1 hb, hkey]
    exact rowId_lt_nextRowId ha
  · refine h.standing.mono rfl (fun rows => ?_) (List.subset_append_left _ _)
    rintro ⟨later, hlater⟩
    refine ⟨later ++ selectPendingExecutionOutboxRows [row], ?_⟩
    show selectPendingExecutionOutboxRows (s.table ++ [row]) = _
    rw [hselect, hlater, List.append_assoc]
  · obtain ⟨hin, haccepted, hleast⟩ := h.first other hother
    refine ⟨?_, haccepted, fun held hheld => ?_⟩
    · rw [hinserted]
      exact List.mem_append_left _ hin
    · have hheld : held ∈ selectPendingExecutionOutboxRows (s.table ++ [row]) := hheld
      rw [hselect] at hheld
      rcases List.mem_append.1 hheld with hheld | hheld
      · exact hleast held hheld
      · rw [List.mem_singleton.1 (List.mem_of_mem_filter hheld), hserial]
        exact Nat.le_of_lt (h.fresh other hin)
  · refine h.processed other deduped ?_
    simpa using hmem

theorem insertAll (h : Kept s trace) (branch : BranchName) (createdSeq : Nat)
    (rows : List OutboxAppendRow) :
    Kept (insertExecutionOutboxRows branch createdSeq rows s).1
      (trace ++ (insertExecutionOutboxRows branch createdSeq rows s).2) := by
  induction rows generalizing s trace with
  | nil => simpa [insertExecutionOutboxRows] using h
  | cons append rest ih =>
    have hlater := ih (h.insert branch createdSeq append)
    rw [List.append_assoc] at hlater
    exact hlater

theorem select (h : Kept s trace) :
    Kept { s with drain := .ready (selectPendingExecutionOutboxRows s.table) } trace :=
  h.quiet rfl rfl rfl ⟨[], by simp⟩

/-- A row that is sent is the earliest of those held. -/
theorem send (h : Kept s trace) (hdrain : s.drain = .ready (row :: rest))
    (localSeq : Nat) (number : Option Nat) :
    Kept { s with localSeq, drain := .sending row rest false } (trace ++ [.sent row number]) := by
  have hfirst : StandFirst s (row :: rest) := by simpa [Standing, hdrain] using h.standing
  refine h.extend rfl rfl rfl rfl rfl ⟨hfirst, by simp⟩ (h.preceded.snoc ?_) (by simp)
  intro other hother hbranch hlt
  by_contra hheld
  have hin : other ∈ s.table := h.mem_table.2
    ⟨mem_insertedRows.2 hother, fun hremoved => hheld (mem_removedRows.1 hremoved)⟩
  have hselected : other ∈ selectPendingExecutionOutboxRows s.table :=
    List.mem_filter.2 ⟨hin, by simpa using hbranch⟩
  exact absurd ((h.least hfirst).2 other hselected) (Nat.not_le.2 hlt)

theorem turn (h : Kept s trace) (o : Options) (spaceDeleted : Bool) :
    Kept (AppendOutbox.turn o spaceDeleted s).1 (trace ++ (AppendOutbox.turn o spaceDeleted s).2) := by
  unfold AppendOutbox.turn
  split
  · simpa using h.stopped
  · rename_i row rest hdrain
    split
    · simpa using h.stopped
    · split
      · exact h.send hdrain s.localSeq none
      · exact h.send hdrain (s.localSeq + 1) (some (s.localSeq + 1))
  · simpa using h

theorem isAccepted_append {accepted : List Accepted} {row : OutboxAppendRow}
    (h : isAccepted accepted row = true) (more : List Accepted) :
    isAccepted (accepted ++ more) row = true := by
  rw [isAccepted, List.any_append]
  exact Bool.or_eq_true_iff.2 (.inl h)

section

variable (h : Kept s trace)
include h

/-- What a target accepts of others changes nothing here. -/
theorem acceptForeign {event : Accepted} (hrow : event.row = none) :
    Kept { s with accepted := s.accepted ++ [event] } trace where
  ascending := h.ascending
  fresh := h.fresh
  table := h.table
  removed := h.removed
  keys := h.keys
  standing := h.standing.mono rfl (fun _ hfirst => hfirst) fun _ hmem => hmem
  preceded := h.preceded
  accepted := by simpa [acceptedRows, hrow] using h.accepted
  first row hmem := by
    have hmem : row ∈ acceptedRows s := by simpa [acceptedRows, hrow] using hmem
    obtain ⟨hin, haccepted, hleast⟩ := h.first row hmem
    exact ⟨hin, isAccepted_append haccepted _, hleast⟩
  processed row deduped hmem := isAccepted_append (h.processed row deduped hmem) _

/-- The row under way is accepted after all that were, each of which came before it. -/
theorem accept (hfirst : StandFirst s (row :: rest))
    (hnot : ¬isAccepted s.accepted row.toOutboxAppendRow = true) :
    Kept { s with
        drain := .sending row rest true
        accepted := s.accepted ++ [⟨row.targetSpace, row.targetStream, row.eventId, some row⟩] }
      (trace ++ [.processed row false]) := by
  obtain ⟨hin, hleast⟩ := h.least hfirst
  have hinserted : insertedRows (trace ++ [.processed row false]) = insertedRows trace :=
    insertedRows_append.trans (List.append_nil _)
  have hremoved : removedRows (trace ++ [.processed row false]) = removedRows trace :=
    removedRows_append.trans (List.append_nil _)
  have hselected : row ∈ selectPendingExecutionOutboxRows s.table := by
    obtain ⟨later, hselect⟩ := hfirst
    simp [hselect]
  let event : Accepted := ⟨row.targetSpace, row.targetStream, row.eventId, some row⟩
  have hself : isAccepted (s.accepted ++ [event]) row.toOutboxAppendRow = true := by
    simp [isAccepted, event]
  have hrows : (s.accepted ++ [event]).filterMap (·.row) = acceptedRows s ++ [row] :=
    List.filterMap_append
  refine ⟨hinserted ▸ h.ascending, hinserted ▸ h.fresh, ?_, ?_, h.keys, ?_,
    h.preceded.snoc trivial, ?_, fun other hother => ?_, fun other deduped hmem => ?_⟩
  · rw [hinserted, hremoved]
    exact h.table
  · rw [hinserted, hremoved]
    exact h.removed
  · exact ⟨hfirst, fun _ => ⟨false, by simp⟩⟩
  · rw [acceptedRows, hrows, List.pairwise_append]
    refine ⟨h.accepted, List.pairwise_singleton _ _, fun a ha b hb => ?_⟩
    rw [List.mem_singleton.1 hb]
    obtain ⟨haIn, haAccepted, haLeast⟩ := h.first a ha
    refine Nat.lt_of_le_of_ne (haLeast row hselected) fun heq => hnot ?_
    exact h.eq_of_serial haIn (h.mem_table.1 hin).1 heq ▸ haAccepted
  · rw [acceptedRows, hrows] at hother
    rw [hinserted]
    rcases List.mem_append.1 hother with hother | hother
    · obtain ⟨hotherIn, haccepted, hotherLeast⟩ := h.first other hother
      exact ⟨hotherIn, isAccepted_append haccepted _, hotherLeast⟩
    · obtain rfl := List.mem_singleton.1 hother
      exact ⟨(h.mem_table.1 hin).1, hself, hleast⟩
  · rcases List.mem_append.1 hmem with hmem | hmem
    · exact isAccepted_append (h.processed other deduped hmem) _
    · obtain ⟨rfl, -⟩ := Event.processed.inj (List.mem_singleton.1 hmem)
      exact hself

theorem process : Kept (AppendOutbox.process s).1 (trace ++ (AppendOutbox.process s).2) := by
  unfold AppendOutbox.process
  split
  · rename_i row rest processed hdrain
    have hstanding := h.standing
    simp only [Standing, hdrain] at hstanding
    dsimp only
    split
    · rename_i haccepted
      refine h.extend rfl rfl rfl rfl rfl ⟨hstanding.1, fun _ => ⟨true, by simp⟩⟩
        (h.preceded.snoc trivial) fun other deduped hmem => ?_
      obtain ⟨rfl, -⟩ := Event.processed.inj (List.mem_singleton.1 hmem)
      exact haccepted
    · rename_i hnot
      exact h.accept hstanding.1 hnot
  · simpa using h

theorem answered (o : Options) (a : Answer) :
    Kept (AppendOutbox.answered o a s).1 (trace ++ (AppendOutbox.answered o a s).2) := by
  unfold AppendOutbox.answered
  split
  · rename_i row rest hdrain
    have hstanding := h.standing
    simp only [Standing, hdrain] at hstanding
    have hnext : Kept
        { s with
          drain := .acknowledged row rest
          routedAppends := if o.routed then s.routedAppends + 1 else s.routedAppends } trace :=
      h.quiet rfl rfl rfl ⟨hstanding.1, hstanding.2 trivial⟩
    simpa using hnext
  · rename_i row rest processed e hdrain
    have hstanding := h.standing
    simp only [Standing, hdrain] at hstanding
    split
    · exact h.extend rfl rfl rfl rfl rfl ⟨hstanding.1, by simp⟩ (h.preceded.snoc trivial) (by simp)
    · simpa using h.stopped
  · simpa using h

theorem writeNotice (o : Options) (throws : Bool) :
    Kept (AppendOutbox.writeNotice o throws s).1
      (trace ++ (AppendOutbox.writeNotice o throws s).2) := by
  unfold AppendOutbox.writeNotice
  split
  · rename_i row rest reason hdrain
    have hstanding := h.standing
    simp only [Standing, hdrain] at hstanding
    have hnoticed {s' : State} (notice : Notice) (htable : s'.table = s.table)
        (hcount : s'.inserted = s.inserted) (haccepted : s'.accepted = s.accepted)
        (hdrain' : s'.drain = .noticed row rest) : Kept s' (trace ++ [.noticed row notice]) := by
      refine h.extend rfl rfl htable hcount haccepted ?_ (h.preceded.snoc trivial) (by simp)
      rw [Standing, hdrain']
      refine ⟨?_, reason, notice, by simp [hstanding.2], by simp⟩
      rw [StandFirst, htable]
      exact hstanding.1
    split
    · exact hnoticed _ rfl rfl rfl rfl
    · exact hnoticed _ rfl rfl rfl rfl
    · dsimp only
      split
      · have hnext : Kept { s with localSeq := s.localSeq + 1, drain := .none } trace :=
          h.quiet rfl rfl rfl trivial
        simpa using hnext
      · exact hnoticed _ rfl rfl rfl rfl
  · simpa using h

/-- A row is deleted alone, since no other has its key. -/
theorem deleted (hfirst : StandFirst s (row :: rest)) (hneeds : Needs trace (.removed row)) :
    Kept { s with table := deleteExecutionOutboxRow s.table row.rowId, drain := .ready rest }
      (trace ++ [.removed row]) := by
  obtain ⟨hin, -⟩ := h.least hfirst
  have hinserted : insertedRows (trace ++ [.removed row]) = insertedRows trace :=
    insertedRows_append.trans (List.append_nil _)
  have hremoved : removedRows (trace ++ [.removed row]) = removedRows trace ++ [row] :=
    removedRows_append
  have hdelete : deleteExecutionOutboxRow s.table row.rowId = s.table.filter fun other => other ≠ row := by
    refine List.filter_congr fun other hother => ?_
    rw [decide_eq_decide]
    exact not_congr ⟨fun hkey => h.eq_of_key hother hin hkey, fun heq => heq ▸ rfl⟩
  have hsub {other : Row} (hmem : other ∈ selectPendingExecutionOutboxRows
      (deleteExecutionOutboxRow s.table row.rowId)) :
      other ∈ selectPendingExecutionOutboxRows s.table := by
    rw [selectPendingExecutionOutboxRows, List.mem_filter] at hmem ⊢
    exact ⟨List.mem_of_mem_filter hmem.1, hmem.2⟩
  refine ⟨hinserted ▸ h.ascending, hinserted ▸ h.fresh, ?_, fun other hother => ?_, ?_, ?_,
    h.preceded.snoc hneeds, h.accepted, fun other hother => ?_, fun other deduped hmem => ?_⟩
  · show deleteExecutionOutboxRow s.table row.rowId = _
    rw [hdelete, hinserted, hremoved, h.table, List.filter_filter]
    refine List.filter_congr fun other _ => ?_
    by_cases hrow : other = row <;> simp [hrow]
  · rw [hremoved] at hother
    rw [hinserted]
    rcases List.mem_append.1 hother with hother | hother
    · exact h.removed other hother
    · rw [List.mem_singleton.1 hother]
      exact (h.mem_table.1 hin).1
  · exact h.keys.filter _
  · obtain ⟨later, hselect⟩ := hfirst
    refine ⟨later, ?_⟩
    show selectPendingExecutionOutboxRows (deleteExecutionOutboxRow s.table row.rowId) = _
    have hnodup : (selectPendingExecutionOutboxRows s.table).Nodup := by
      refine List.Pairwise.imp (fun hlt heq => ?_) (h.keys.filter _)
      exact Nat.lt_irrefl _ (heq ▸ hlt)
    rw [hselect, List.cons_append, List.nodup_cons] at hnodup
    have hcomm : selectPendingExecutionOutboxRows (s.table.filter fun other => other ≠ row) =
        (selectPendingExecutionOutboxRows s.table).filter fun other => other ≠ row := by
      rw [selectPendingExecutionOutboxRows, selectPendingExecutionOutboxRows, List.filter_filter,
        List.filter_filter]
      exact List.filter_congr fun other _ => Bool.and_comm ..
    rw [hdelete, hcomm, hselect, List.cons_append, List.filter_cons_of_neg (by simp),
      List.filter_eq_self]
    intro other hother
    simpa using fun heq : other = row => hnodup.1 (heq ▸ hother)
  · obtain ⟨hotherIn, haccepted, hleast⟩ := h.first other hother
    exact ⟨hinserted ▸ hotherIn, haccepted, fun held hheld => hleast held (hsub hheld)⟩
  · refine h.processed other deduped ?_
    simpa using hmem

theorem retire (hfirst : StandFirst s (row :: rest)) (hneeds : Needs trace (.removed row))
    (throws : Bool) :
    Kept (AppendOutbox.retire row rest throws s).1
      (trace ++ (AppendOutbox.retire row rest throws s).2) := by
  unfold AppendOutbox.retire
  split
  · simpa using h.stopped
  · exact h.deleted hfirst hneeds

theorem step (o : Options) (input : Input) :
    Kept (AppendOutbox.step o s input).1 (trace ++ (AppendOutbox.step o s input).2) := by
  cases input with
  | wave branch createdSeq rows => exact h.insertAll branch createdSeq rows
  | rewriteSource sidecarId entries =>
    have hnext : Kept
        { s with sources := fun id => if id = sidecarId then entries else s.sources id } trace :=
      h.quiet rfl rfl rfl (h.standing.mono rfl (fun _ hfirst => hfirst) fun _ hmem => hmem)
    simpa [AppendOutbox.step] using hnext
  | foreign targetSpace targetStream eventId =>
    let event : Accepted := ⟨targetSpace, targetStream, eventId, none⟩
    have haccepted : Kept { s with accepted := s.accepted ++ [event] } trace := h.acceptForeign rfl
    rw [AppendOutbox.step]
    split
    · simpa using h
    · simpa using haccepted
  | drain =>
    rw [AppendOutbox.step]
    split
    · simpa using h.select
    · simpa using h
  | next spaceDeleted => exact h.turn o spaceDeleted
  | process => exact h.process
  | answer a => exact h.answered o a
  | notice throws => exact h.writeNotice o throws
  | delete throws =>
    rw [AppendOutbox.step]
    have hstanding := h.standing
    split
    · rename_i row rest hdrain
      simp only [Standing, hdrain] at hstanding
      exact h.retire hstanding.1 (.inl hstanding.2) throws
    · rename_i row rest hdrain
      simp only [Standing, hdrain] at hstanding
      exact h.retire hstanding.1 (.inr hstanding.2) throws
    · simpa using h
  | crash => simpa [AppendOutbox.step] using h.stopped

theorem run (o : Options) (inputs : List Input) :
    Kept (AppendOutbox.run o s inputs).1 (trace ++ (AppendOutbox.run o s inputs).2) := by
  induction inputs generalizing s trace with
  | nil => simpa [AppendOutbox.run] using h
  | cons input inputs ih =>
    have hlater := ih (h.step o input)
    rw [List.append_assoc] at hlater
    exact hlater

end

end Kept

theorem kept_initial (sources : EntityId → List SourceEntry) : Kept (initial sources) [] where
  ascending := List.Pairwise.nil
  fresh := by simp [insertedRows]
  table := rfl
  removed := by simp [removedRows]
  keys := List.Pairwise.nil
  standing := trivial
  preceded := .nil
  accepted := List.Pairwise.nil
  first row hrow := by simp [acceptedRows, initial] at hrow
  processed := by simp

theorem sourceEntryOf_withNotice {entries : List SourceEntry} {eventId : JsString}
    (failure : DeliveryFailure) {entry : SourceEntry}
    (h : sourceEntryOf entries eventId = some entry) :
    ∃ noticed, sourceEntryOf (withNotice eventId failure entries) eventId = some noticed ∧
      (noticed.deliveryFailures.any fun f => f.eventId = failure.eventId) = true := by
  induction entries with
  | nil => cases h
  | cons x rest ih =>
    by_cases hx : x.eventId = some eventId
    · rw [withNotice, if_pos hx]
      by_cases hany : (x.deliveryFailures.any fun f => f.eventId = failure.eventId) = true
      · rw [if_pos hany]
        exact ⟨x, List.find?_cons_of_pos (by simpa using hx), hany⟩
      · rw [if_neg hany]
        exact ⟨_, List.find?_cons_of_pos (by simpa using hx), by simp⟩
    · rw [withNotice, if_neg hx]
      rw [sourceEntryOf, List.find?_cons_of_neg (by simpa using hx)] at h
      obtain ⟨noticed, hfind, hany⟩ := ih h
      refine ⟨noticed, ?_, hany⟩
      rw [sourceEntryOf, List.find?_cons_of_neg (by simpa using hx)]
      exact hfind

/-- A notice is dealt with by its own step. -/
theorem notice_input {o : Options} {s : State} {input : Input} {row : Row} {notice : Notice}
    (h : .noticed row notice ∈ (step o s input).2) : ∃ throws, input = .notice throws := by
  cases input with
  | notice throws => exact ⟨throws, rfl⟩
  | wave branch createdSeq rows =>
    have hnone (rows : List OutboxAppendRow) (s : State) :
        .noticed row notice ∉ (insertExecutionOutboxRows branch createdSeq rows s).2 := by
      induction rows generalizing s with
      | nil => simp [insertExecutionOutboxRows]
      | cons append rest ih =>
        simpa [insertExecutionOutboxRows] using ih (addRow (rowFor branch createdSeq append s) s)
    exact absurd h (hnone rows s)
  | next spaceDeleted =>
    simp only [step, turn] at h
    split at h
    · simp at h
    · split at h
      · simp at h
      · split at h <;> simp at h
    · simp at h
  | process =>
    simp only [step, process] at h
    split at h
    · split at h <;> simp at h
    · simp at h
  | answer a =>
    simp only [step, answered] at h
    split at h
    · simp at h
    · split at h <;> simp at h
    · simp at h
  | delete throws =>
    have hretire (removed : Row) (rest : List Row) :
        .noticed row notice ∉ (retire removed rest throws s).2 := by
      unfold retire
      split <;> simp
    simp only [step] at h
    split at h
    · exact absurd h (hretire _ _)
    · exact absurd h (hretire _ _)
    · simp at h
  | rewriteSource sidecarId entries => simp [step] at h
  | foreign targetSpace targetStream eventId =>
    simp only [step] at h
    split at h <;> simp at h
  | drain =>
    simp only [step] at h
    split at h <;> simp at h
  | crash => simp [step] at h

/-- What a notice dealt with between two states tells. -/
def Tells (o : Options) (s s' : State) (row : Row) : Notice → Prop
  | .stored => noticeHeld s'.sources row = true
  | .unsourced => row.sourceEvent = none
  | .unspaced => o.space = none
  | .entryGone => ∃ source, row.sourceEvent = some source ∧
      sourceEntryOf (s.sources source.sidecarId) source.eventId = none

/-- What the events of a step tell of a notice is so. -/
theorem tells_of_noticed {o : Options} {s : State} {input : Input} {row : Row} {notice : Notice}
    (h : .noticed row notice ∈ (step o s input).2) : Tells o s (step o s input).1 row notice := by
  obtain ⟨throws, rfl⟩ := notice_input h
  have hstep : step o s (.notice throws) = writeNotice o throws s := rfl
  rw [hstep] at h ⊢
  unfold writeNotice at h ⊢
  cases hdrain : s.drain with
  | refused row' rest reason =>
    rw [hdrain] at h
    cases hsource : row'.sourceEvent with
    | none =>
      simp only [hsource] at h
      obtain ⟨rfl, rfl⟩ := Event.noticed.inj (List.mem_singleton.1 h)
      exact hsource
    | some source =>
      cases hspace : o.space with
      | none =>
        simp only [hsource, hspace] at h
        obtain ⟨rfl, rfl⟩ := Event.noticed.inj (List.mem_singleton.1 h)
        exact hspace
      | some space =>
        simp only [hsource, hspace] at h ⊢
        by_cases hthrows : throws = true
        · simp [hthrows] at h
        simp only [hthrows] at h ⊢
        obtain ⟨rfl, rfl⟩ := Event.noticed.inj (List.mem_singleton.1 h)
        cases hentry : sourceEntryOf (s.sources source.sidecarId) source.eventId with
        | none => exact ⟨source, hsource, hentry⟩
        | some entry =>
          obtain ⟨noticed, hfind, hany⟩ := sourceEntryOf_withNotice
            ⟨row.eventId, row.targetSpace, reason⟩ hentry
          simp [Tells, noticeHeld, hsource, hfind, hany]
  | _ => simp [hdrain] at h

/-- Over any run: the targets accept the rows in the order of insertion; when a row is sent, the
rows inserted before it are deleted; a row is deleted after its target processed it, or after it
was refused for good and the notice was dealt with; and every row inserted is held, or accepted
at its target, or refused with its notice dealt with. The notice is stored then, unless the row
has no source event, the outbox no space, or the stream's document no entry of the event. -/
theorem delivers (o : Options) (sources : EntityId → List SourceEntry) (inputs : List Input) :
    (acceptedRows (run o (initial sources) inputs).1).Pairwise (fun a b => a.serial < b.serial) ∧
      (insertedRows (run o (initial sources) inputs).2).Pairwise (fun a b => a.serial < b.serial) ∧
      (∀ before row number after, (run o (initial sources) inputs).2 = before ++ .sent row number :: after →
        ∀ other, .inserted other ∈ before → other.branch = DEFAULT_BRANCH → other.serial < row.serial →
          .removed other ∈ before) ∧
      (∀ before row after, (run o (initial sources) inputs).2 = before ++ .removed row :: after →
        (∃ deduped, .processed row deduped ∈ before) ∨
          ∃ reason notice, .refused row reason ∈ before ∧ .noticed row notice ∈ before) ∧
      (∀ row, .inserted row ∈ (run o (initial sources) inputs).2 →
        row ∈ (run o (initial sources) inputs).1.table ∨
          isAccepted (run o (initial sources) inputs).1.accepted row.toOutboxAppendRow = true ∨
          ∃ reason notice, .refused row reason ∈ (run o (initial sources) inputs).2 ∧
            .noticed row notice ∈ (run o (initial sources) inputs).2) ∧
      ∀ input row notice,
        .noticed row notice ∈ (step o (run o (initial sources) inputs).1 input).2 →
          Tells o (run o (initial sources) inputs).1
            (step o (run o (initial sources) inputs).1 input).1 row notice := by
  have h : Kept (run o (initial sources) inputs).1 ([] ++ (run o (initial sources) inputs).2) :=
    (kept_initial sources).run o inputs
  rw [List.nil_append] at h
  refine ⟨h.accepted, h.ascending, fun before row number after hsplit =>
    h.preceded before (.sent row number) after hsplit, fun before row after hsplit =>
    h.preceded before (.removed row) after hsplit, fun row hrow => ?_, fun input row notice =>
    tells_of_noticed⟩
  by_cases hremoved : row ∈ removedRows (run o (initial sources) inputs).2
  · obtain ⟨before, after, hsplit⟩ := List.append_of_mem (mem_removedRows.1 hremoved)
    rcases h.preceded before (.removed row) after hsplit with
      ⟨deduped, hmem⟩ | ⟨reason, notice, hrefused, hnoticed⟩
    · refine .inr (.inl (h.processed row deduped ?_))
      rw [hsplit]
      exact List.mem_append_left _ hmem
    · refine .inr (.inr ⟨reason, notice, ?_, ?_⟩)
      · rw [hsplit]
        exact List.mem_append_left _ hrefused
      · rw [hsplit]
        exact List.mem_append_left _ hnoticed
  · exact .inl (h.mem_table.2 ⟨mem_insertedRows.2 hrow, hremoved⟩)

/-- An append of the handler of event `e`. -/
def orphan : OutboxAppendRow where
  targetSpace := "t"
  targetStream := "of:stream-events:t"
  targetStreamLink := none
  eventId := "a"
  payload := .null
  actingPrincipal := none
  actingSession := none
  sessionlessSpaceScope := true
  capabilityRef := "c"
  sourceEvent := some ⟨"of:stream-events:s", "e"⟩

/-- A row whose source event's entry was compacted away leaves the outbox when it is refused,
and no notice of it is stored. -/
theorem not_delivers :
    let row := rowFor DEFAULT_BRANCH 1 orphan (initial fun _ => [])
    let trace := (run ⟨some "s", false⟩ (initial fun _ => []) [.wave DEFAULT_BRANCH 1 [orphan], .drain,
      .next false, .answer (.failed (.protocol "no grant")), .notice false, .delete false]).2
    .removed row ∈ trace ∧ row.sourceEvent.isSome ∧ (∀ deduped, .processed row deduped ∉ trace) ∧
      .noticed row .stored ∉ trace := by
  decide +kernel

end AppendOutbox
