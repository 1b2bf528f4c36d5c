import Mathlib.Data.List.Sort
import CommonFabric.ClientCommit
import CommonFabric.JsMap

/-!
# Delivery frames

What the server remembers of the documents a session holds, the frame that takes the
session from one such memory to the next, and the client's view the frame is applied to.
The frame's order of entries is that of a locale's collation, which is a parameter here.
-/

/-- The documents of a frame to upsert. -/
structure SessionSyncUpsert where
  branch : BranchName
  id : EntityId
  scope : Option CellScope
  scopeKey : Option ScopeKey
  seq : Nat
  doc : Option EntityDocument
  deleted : Bool
  coverClass : Option CommitClass
  deriving DecidableEq

structure SessionSyncRemove where
  branch : BranchName
  id : EntityId
  scope : Option CellScope
  scopeKey : Option ScopeKey
  deriving DecidableEq

/-- A frame, of which the lists that a diff does not fill are left out. -/
structure SessionSync where
  fromSeq : Nat
  toSeq : Nat
  upserts : List SessionSyncUpsert
  removes : List SessionSyncRemove
  deriving DecidableEq

/-- What the server remembers of one document instance that a session holds. -/
structure SessionCacheEntry where
  branch : BranchName
  id : EntityId
  scope : CellScope
  scopeKey : ScopeKey
  seq : Nat
  doc : Option EntityDocument
  deleted : Bool
  coverClass : Option CommitClass
  deriving DecidableEq

namespace ServerSync

def NUL : JsString := ⟨[0]⟩

def cacheKeyForEntity (branch : BranchName) (id : EntityId) (scopeKey : ScopeKey) : JsString :=
  .concat [branch, NUL, scopeKey, NUL, id]

def sameSnapshot (left right : Option SessionCacheEntry) : Bool :=
  match left, right with
  | none, none => true
  | some left, some right => left.branch = right.branch && left.id = right.id &&
      left.scopeKey = right.scopeKey && left.seq = right.seq && left.deleted = right.deleted
  | _, _ => false

def toWireUpsert (entry : SessionCacheEntry) (keyed : Bool) : SessionSyncUpsert where
  branch := entry.branch
  id := entry.id
  scope := some entry.scope
  scopeKey := if keyed then some entry.scopeKey else none
  seq := entry.seq
  doc := if entry.deleted then none else entry.doc
  deleted := entry.deleted
  coverClass := entry.coverClass

def toWireRemove (entry : SessionCacheEntry) (keyed : Bool) : SessionSyncRemove where
  branch := entry.branch
  id := entry.id
  scope := some entry.scope
  scopeKey := if keyed then some entry.scopeKey else none

/-- `localeCompare`, of whatever locale. -/
abbrev LocaleCompare := JsString → JsString → Int

/-- The first comparison that decides. -/
def orElse (a b : Int) : Int := if a ≠ 0 then a else b

def scopeText : Option CellScope → JsString
  | some .user => "user"
  | some .session => "session"
  | _ => "space"

/-- What `compareSyncAddress` compares. -/
structure SyncAddress where
  branch : BranchName
  id : EntityId
  scope : Option CellScope

def compareSyncAddress (localeCompare : LocaleCompare) (left right : SyncAddress) : Int :=
  orElse (localeCompare left.branch right.branch)
    (orElse (localeCompare (scopeText left.scope) (scopeText right.scope))
      (localeCompare left.id right.id))

def removeAddress (remove : SessionSyncRemove) : SyncAddress :=
  ⟨remove.branch, remove.id, remove.scope⟩

def entryAddress (entry : SessionCacheEntry) : SyncAddress :=
  ⟨entry.branch, entry.id, some entry.scope⟩

/-- A stable sort by address. -/
def sortByAddress {α : Type} (localeCompare : LocaleCompare) (address : α → SyncAddress)
    (xs : List α) : List α :=
  xs.mergeSort fun a b => compareSyncAddress localeCompare (address a) (address b) ≤ 0

/-- The entries a frame carries, with the instances the frame itself may not name. -/
structure Delivered where
  upserts : List SessionCacheEntry
  removes : List SessionCacheEntry

/-- The entries of `next` that are not as they were. -/
def changedEntries (previous next : JsMap JsString SessionCacheEntry) : List SessionCacheEntry :=
  (next.entries.filter fun e => !sameSnapshot (previous.get e.1) (some e.2)).map (·.2)

/-- The entries of `previous` that are not in `next`. -/
def removedEntries (previous next : JsMap JsString SessionCacheEntry) : List SessionCacheEntry :=
  (previous.entries.filter fun e => !next.has e.1).map (·.2)

def buildDiffSync (localeCompare : LocaleCompare)
    (previous next : JsMap JsString SessionCacheEntry) (fromSeq toSeq : Nat) (keyed : Bool) :
    SessionSync × Delivered :=
  let upserts := changedEntries previous next
  let removed := removedEntries previous next
  let removes := sortByAddress localeCompare removeAddress (removed.map (toWireRemove · keyed))
  (⟨fromSeq, toSeq,
    (sortByAddress localeCompare entryAddress upserts).map (toWireUpsert · keyed), removes⟩,
   ⟨upserts, removed⟩)

end ServerSync

/-- A document instance as a client holds it. -/
structure EntitySnapshot where
  branch : BranchName
  id : EntityId
  scope : Option CellScope
  scopeKey : Option ScopeKey
  seq : Nat
  document : Option EntityDocument
  deriving DecidableEq

structure WatchView where
  entities : JsMap JsString EntitySnapshot
  serverSeq : Nat

namespace WatchView

open ServerSync

def watchKey (branch : BranchName) (id : EntityId) (scope : Option CellScope)
    (scopeKey : Option ScopeKey) : JsString :=
  .concat [branch, NUL, scopeKey.getD (scopeText scope), NUL, id]

def upsertKey (upsert : SessionSyncUpsert) : JsString :=
  watchKey upsert.branch upsert.id upsert.scope upsert.scopeKey

def removeKey (remove : SessionSyncRemove) : JsString :=
  watchKey remove.branch remove.id remove.scope remove.scopeKey

def snapshotOf (upsert : SessionSyncUpsert) : EntitySnapshot :=
  ⟨upsert.branch, upsert.id, upsert.scope, upsert.scopeKey, upsert.seq, upsert.doc⟩

/-- A key that is both upserted and removed is removed. -/
def applySync (view : WatchView) (sync : SessionSync) : WatchView :=
  let upserts := JsMap.setAll .empty (sync.upserts.map fun u => (upsertKey u, snapshotOf u))
  let removeKeys := sync.removes.map removeKey
  let kept := upserts.entries.filter fun e => !removeKeys.contains e.1
  ⟨(view.entities.setAll kept).deleteAll removeKeys, max view.serverSeq sync.toSeq⟩

end WatchView

namespace ServerSync

/-- A server-side map: each entry is under its own key, and of the scope its key is of. -/
structure EntityMap where
  map : JsMap JsString SessionCacheEntry
  keys : ∀ e ∈ map.entries, e.1 = cacheKeyForEntity e.2.branch e.2.id e.2.scopeKey
  scopes : ∀ e ∈ map.entries, e.2.scope = scopeOfScopeKey e.2.scopeKey

/-- The key a view has an entry under. -/
def viewKey (keyed : Bool) (entry : SessionCacheEntry) : JsString :=
  WatchView.upsertKey (toWireUpsert entry keyed)

/-- The frames' vocabulary tells the instances of the two maps apart, as the maps do. -/
def TellsApart (keyed : Bool) (previous next : EntityMap) : Prop :=
  ∀ e ∈ previous.map.entries ++ next.map.entries, ∀ e' ∈ previous.map.entries ++ next.map.entries,
    viewKey keyed e.2 = viewKey keyed e'.2 ↔ e.1 = e'.1

/-- The document that a key stands for at a seq, deleted or not. -/
abbrev Documents := JsString → Nat → Bool → Option EntityDocument

/-- An entry as a view shows it. -/
def shown (keyed : Bool) (documents : Documents) (e : JsString × SessionCacheEntry) :
    EntitySnapshot :=
  ⟨e.2.branch, e.2.id, some e.2.scope, if keyed then some e.2.scopeKey else none, e.2.seq,
    documents e.1 e.2.seq e.2.deleted⟩

/-- The view holds the map's documents and no others. -/
structure Shows (keyed : Bool) (documents : Documents) (m : EntityMap) (view : WatchView) :
    Prop where
  held : ∀ e ∈ m.map.entries,
    view.entities.get (viewKey keyed e.2) = some (shown keyed documents e)
  only : ∀ k s, view.entities.get k = some s → ∃ e ∈ m.map.entries, viewKey keyed e.2 = k

/-- The map's entries carry the documents they stand for. -/
def Carries (documents : Documents) (m : EntityMap) : Prop :=
  ∀ e ∈ m.map.entries,
    (if e.2.deleted then none else e.2.doc) = documents e.1 e.2.seq e.2.deleted

theorem upsertKey_keyed (entry : SessionCacheEntry) :
    viewKey true entry = cacheKeyForEntity entry.branch entry.id entry.scopeKey := rfl

/-- Frames that name the instance tell apart what the maps do. -/
theorem tellsApart_keyed (previous next : EntityMap) : TellsApart true previous next := by
  have hkey : ∀ e ∈ previous.map.entries ++ next.map.entries, viewKey true e.2 = e.1 := by
    intro e he
    rw [upsertKey_keyed]
    rcases List.mem_append.1 he with he | he
    · exact (previous.keys e he).symm
    · exact (next.keys e he).symm
  intro e he e' he'
  rw [hkey e he, hkey e' he']

theorem sameSnapshot_some {left : Option SessionCacheEntry} {right : SessionCacheEntry}
    (h : sameSnapshot left (some right) = true) : ∃ l, left = some l ∧ l.branch = right.branch ∧
      l.id = right.id ∧ l.scopeKey = right.scopeKey ∧ l.seq = right.seq ∧
      l.deleted = right.deleted := by
  cases left with
  | none => cases h
  | some l =>
    simp only [sameSnapshot, Bool.and_eq_true, decide_eq_true_eq] at h
    obtain ⟨⟨⟨⟨h₁, h₂⟩, h₃⟩, h₄⟩, h₅⟩ := h
    exact ⟨l, rfl, h₁, h₂, h₃, h₄, h₅⟩

theorem mem_sortByAddress {α : Type} {localeCompare : LocaleCompare} {address : α → SyncAddress}
    {xs : List α} {x : α} : x ∈ sortByAddress localeCompare address xs ↔ x ∈ xs :=
  List.mem_mergeSort

variable {localeCompare : LocaleCompare} {previous next : EntityMap} {fromSeq toSeq : Nat}
  {keyed : Bool} {documents : Documents} {view : WatchView}

/-- The keys and documents the frame upserts. -/
def upserted (localeCompare : LocaleCompare) (previous next : EntityMap) (keyed : Bool) :
    List (JsString × EntitySnapshot) :=
  ((sortByAddress localeCompare entryAddress (changedEntries previous.map next.map)).map
    (toWireUpsert · keyed)).map fun u => (WatchView.upsertKey u, WatchView.snapshotOf u)

/-- The keys the frame removes. -/
def removedKeys (localeCompare : LocaleCompare) (previous next : EntityMap) (keyed : Bool) :
    List JsString :=
  (sortByAddress localeCompare removeAddress
    ((removedEntries previous.map next.map).map (toWireRemove · keyed))).map WatchView.removeKey

theorem mem_changedEntries {entry : SessionCacheEntry} :
    entry ∈ changedEntries previous.map next.map ↔ ∃ e ∈ next.map.entries, e.2 = entry ∧
      sameSnapshot (previous.map.get e.1) (some e.2) = false := by
  simp only [changedEntries, List.mem_map, List.mem_filter, Bool.not_eq_true']
  constructor
  · rintro ⟨e, ⟨he, hs⟩, rfl⟩; exact ⟨e, he, rfl, hs⟩
  · rintro ⟨e, he, rfl, hs⟩; exact ⟨e, ⟨he, hs⟩, rfl⟩

theorem mem_upserted (hcarries : Carries documents next) {x : JsString × EntitySnapshot} :
    x ∈ upserted localeCompare previous next keyed ↔ ∃ e ∈ next.map.entries,
      x = (viewKey keyed e.2, shown keyed documents e) ∧
      sameSnapshot (previous.map.get e.1) (some e.2) = false := by
  rw [upserted, List.map_map, List.mem_map]
  constructor
  · rintro ⟨entry, hentry, rfl⟩
    obtain ⟨e, he, rfl, hs⟩ := mem_changedEntries.1 (mem_sortByAddress.1 hentry)
    refine ⟨e, he, ?_, hs⟩
    rw [shown, ← hcarries e he]
    rfl
  · rintro ⟨e, he, rfl, hs⟩
    refine ⟨e.2, mem_sortByAddress.2 (mem_changedEntries.2 ⟨e, he, rfl, hs⟩), ?_⟩
    rw [shown, ← hcarries e he]
    rfl

theorem mem_removedKeys {k : JsString} : k ∈ removedKeys localeCompare previous next keyed ↔
    ∃ e ∈ previous.map.entries, viewKey keyed e.2 = k ∧ next.map.has e.1 = false := by
  simp only [removedKeys, removedEntries, List.mem_map, mem_sortByAddress, List.mem_filter,
    Bool.not_eq_true']
  constructor
  · rintro ⟨_, ⟨_, ⟨e, ⟨he, hnot⟩, rfl⟩, rfl⟩, rfl⟩
    exact ⟨e, he, rfl, hnot⟩
  · rintro ⟨e, he, rfl, hnot⟩
    exact ⟨_, ⟨_, ⟨e, ⟨he, hnot⟩, rfl⟩, rfl⟩, rfl⟩

/-- The frame upserts no key twice. -/
theorem nodup_upserted (happart : TellsApart keyed previous next) :
    ((upserted localeCompare previous next keyed).map (·.1)).Nodup := by
  have hperm : ((upserted localeCompare previous next keyed).map (·.1)).Perm
      ((changedEntries previous.map next.map).map (viewKey keyed)) := by
    rw [upserted, List.map_map, List.map_map]
    exact (List.mergeSort_perm _ _).map _
  rw [hperm.nodup_iff, changedEntries, List.map_map]
  refine List.Nodup.map_on ?_ ((List.Nodup.of_map _ next.map.nodup).filter _)
  intro e he e' he' hsame
  have hmem : ∀ x ∈ next.map.entries.filter fun e => !sameSnapshot (previous.map.get e.1) (some e.2),
      x ∈ next.map.entries := fun x hx => (List.mem_filter.1 hx).1
  have hkey := (happart e (List.mem_append_right _ (hmem e he)) e'
    (List.mem_append_right _ (hmem e' he'))).1 hsame
  exact List.inj_on_of_nodup_map next.map.nodup (hmem e he) (hmem e' he') hkey

/-- What a key holds after the frame. -/
theorem get_applySync (k : JsString) :
    (view.applySync (buildDiffSync localeCompare previous.map next.map fromSeq toSeq keyed).1
        ).entities.get k =
      if k ∈ removedKeys localeCompare previous next keyed then none
      else ((JsMap.setAll .empty (upserted localeCompare previous next keyed)).get k).or
        (view.entities.get k) := by
  have happly : (view.applySync
      (buildDiffSync localeCompare previous.map next.map fromSeq toSeq keyed).1).entities =
      (view.entities.setAll ((JsMap.setAll .empty
        (upserted localeCompare previous next keyed)).entries.filter fun e =>
          !(removedKeys localeCompare previous next keyed).contains e.1)).deleteAll
        (removedKeys localeCompare previous next keyed) := rfl
  rw [happly, JsMap.get_deleteAll]
  split
  · rfl
  · rename_i hnot
    generalize JsMap.setAll .empty (upserted localeCompare previous next keyed) = upserts
    cases hget : upserts.get k with
    | some s =>
      have hmem : (k, s) ∈ upserts.entries.filter fun e =>
          !(removedKeys localeCompare previous next keyed).contains e.1 :=
        List.mem_filter.2 ⟨JsMap.mem_of_get hget, by simpa using hnot⟩
      exact JsMap.get_setAll_of_mem _
        (upserts.nodup.sublist (List.filter_sublist.map _)) hmem
    | none =>
      rw [JsMap.get_setAll_of_not_mem, Option.none_or]
      intro hmem
      obtain ⟨e, he, rfl⟩ := List.mem_map.1 hmem
      rw [JsMap.get_of_mem (List.mem_filter.1 he).1] at hget
      cases hget

/-- A view that holds the documents of `previous` holds those of `next` after the frame
that is their difference. -/
theorem diff_sync_delivers (hunkeyed : keyed = false → TellsApart keyed previous next)
    (hcarries : Carries documents next) (hview : Shows keyed documents previous view) :
    Shows keyed documents next (view.applySync
      (buildDiffSync localeCompare previous.map next.map fromSeq toSeq keyed).1) := by
  have happart : TellsApart keyed previous next := by
    cases keyed with
    | true => exact tellsApart_keyed previous next
    | false => exact hunkeyed rfl
  have hnodup : ((upserted localeCompare previous next keyed).map (·.1)).Nodup :=
    nodup_upserted happart
  constructor
  · intro e he
    have hleft := List.mem_append_right previous.map.entries he
    have hkept : viewKey keyed e.2 ∉ removedKeys localeCompare previous next keyed := by
      intro hmem
      obtain ⟨p, hp, hsame, hnot⟩ := mem_removedKeys.1 hmem
      have hkey := (happart p (List.mem_append_left _ hp) e hleft).1 hsame
      rw [hkey, JsMap.has, JsMap.get_of_mem he] at hnot
      cases hnot
    rw [get_applySync, if_neg hkept]
    cases hsame : sameSnapshot (previous.map.get e.1) (some e.2) with
    | false =>
      rw [JsMap.get_setAll_of_mem _ hnodup ((mem_upserted hcarries).2 ⟨e, he, rfl, hsame⟩)]
      rfl
    | true =>
      -- Nothing is sent of the document, which the view shows already.
      obtain ⟨p, hp, hbranch, hid, hscopeKey, hseq, hdeleted⟩ := sameSnapshot_some hsame
      have hmem := JsMap.mem_of_get hp
      rw [JsMap.get_setAll_of_not_mem, JsMap.get_empty, Option.none_or]
      · have hheld := hview.held _ hmem
        have hkey := (happart _ (List.mem_append_left _ hmem) e hleft).2 rfl
        rw [hkey] at hheld
        have hscope : p.scope = e.2.scope := by
          rw [previous.scopes _ hmem, next.scopes e he, hscopeKey]
        rw [hheld]
        simp [shown, hbranch, hid, hscopeKey, hseq, hdeleted, hscope]
      · intro hup
        obtain ⟨x, hx, hxkey⟩ := List.mem_map.1 hup
        obtain ⟨u, hu, rfl, hchanged⟩ := (mem_upserted hcarries).1 hx
        have hkey := (happart u (List.mem_append_right _ hu) e hleft).1 hxkey
        obtain rfl := List.inj_on_of_nodup_map next.map.nodup hu he hkey
        rw [hsame] at hchanged
        cases hchanged
  · intro k s hget
    rw [get_applySync] at hget
    split at hget
    · cases hget
    · rename_i hnot
      cases hup : (JsMap.setAll .empty (upserted localeCompare previous next keyed)).get k with
      | some s' =>
        by_contra hnone
        have hmiss : k ∉ (upserted localeCompare previous next keyed).map (·.1) := by
          intro hmem
          obtain ⟨x, hx, rfl⟩ := List.mem_map.1 hmem
          obtain ⟨e, he, rfl, _⟩ := (mem_upserted hcarries).1 hx
          exact hnone ⟨e, he, rfl⟩
        rw [JsMap.get_setAll_of_not_mem _ hmiss] at hup
        cases hup
      | none =>
        rw [hup, Option.none_or] at hget
        obtain ⟨p, hp, rfl⟩ := hview.only k s hget
        cases hhas : next.map.has p.1 with
        | false => exact absurd (mem_removedKeys.2 ⟨p, hp, rfl, hhas⟩) hnot
        | true =>
          obtain ⟨entry, hentry⟩ := JsMap.has_iff.1 hhas
          exact ⟨_, hentry, ((happart p (List.mem_append_left _ hp) _
            (List.mem_append_right _ hentry)).2 rfl).symm⟩

def heldEntry (scopeKey : ScopeKey) (id : EntityId) (seq : Nat) (value : Option FabricValue) :
    SessionCacheEntry :=
  ⟨"", id, .user, scopeKey, seq, value.map fun v => ⟨[("value", v)]⟩, value.isNone, none⟩

def heldKey (scopeKey : ScopeKey) (id : EntityId) : JsString := cacheKeyForEntity "" id scopeKey

/-- A document that stays, one that changes, and one that leaves. -/
def previousMap : EntityMap :=
  ⟨⟨[(heldKey "user:alice" "of:a", heldEntry "user:alice" "of:a" 1 (some .null)),
     (heldKey "user:alice" "of:b", heldEntry "user:alice" "of:b" 2 none),
     (heldKey "user:alice" "of:c", heldEntry "user:alice" "of:c" 1 (some .null))], by decide⟩,
    by decide, by decide⟩

def nextMap : EntityMap :=
  ⟨⟨[(heldKey "user:alice" "of:b", heldEntry "user:alice" "of:b" 3 (some .null)),
     (heldKey "user:alice" "of:a", heldEntry "user:alice" "of:a" 1 (some .null))], by decide⟩,
    by decide, by decide⟩

def heldDocuments : Documents := fun _ _ deleted =>
  if deleted then none else some ⟨[("value", .null)]⟩

/-- The view of frames that do not name the instance. -/
def unkeyedView (m : EntityMap) : WatchView :=
  ⟨JsMap.setAll .empty (m.map.entries.map fun e => (viewKey false e.2, shown false heldDocuments e)),
    2⟩

theorem unkeyedView_only {m : EntityMap} {k : JsString} {s : EntitySnapshot}
    (h : (unkeyedView m).entities.get k = some s) :
    ∃ e ∈ m.map.entries, viewKey false e.2 = k := by
  by_contra hnone
  have hmiss : k ∉ (m.map.entries.map fun e =>
      (viewKey false e.2, shown false heldDocuments e)).map (·.1) := by
    intro hmem
    obtain ⟨x, hx, rfl⟩ := List.mem_map.1 hmem
    obtain ⟨e, he, rfl⟩ := List.mem_map.1 hx
    exact hnone ⟨e, he, rfl⟩
  rw [unkeyedView, JsMap.get_setAll_of_not_mem _ hmiss] at h
  cases h

theorem diff_sync_delivers_changes : Shows false heldDocuments nextMap
    ((unkeyedView previousMap).applySync
      (buildDiffSync (fun _ _ => 0) previousMap.map nextMap.map 2 3 false).1) := by
  refine diff_sync_delivers (fun _ => by unfold TellsApart; decide +kernel)
    (by unfold Carries; decide) ⟨by decide +kernel, fun _ _ => unkeyedView_only⟩

def aliceMap : EntityMap :=
  ⟨⟨[(heldKey "user:alice" "of:d", heldEntry "user:alice" "of:d" 1 (some .null))], by decide⟩,
    by decide, by decide⟩

def bobMap : EntityMap :=
  ⟨⟨[(heldKey "user:bob" "of:d", heldEntry "user:bob" "of:d" 1 (some .null))], by decide⟩,
    by decide, by decide⟩

/-- A frame that does not name the instance removes one user's document and the other's with it. -/
theorem unkeyed_frame_loses :
    Carries heldDocuments aliceMap ∧ Carries heldDocuments bobMap ∧
      Shows false heldDocuments aliceMap (unkeyedView aliceMap) ∧
      ¬Shows false heldDocuments bobMap ((unkeyedView aliceMap).applySync
        (buildDiffSync (fun _ _ => 0) aliceMap.map bobMap.map 2 3 false).1) := by
  have hlost : ((unkeyedView aliceMap).applySync (buildDiffSync (fun _ _ => 0) aliceMap.map
      bobMap.map 2 3 false).1).entities.get
      (viewKey false (heldEntry "user:bob" "of:d" 1 (some .null))) = none := by
    decide +kernel
  refine ⟨by unfold Carries; decide, by unfold Carries; decide,
    ⟨by decide +kernel, fun _ _ => unkeyedView_only⟩, fun h => ?_⟩
  have hheld := h.held _ List.mem_cons_self
  rw [hlost] at hheld
  cases hheld

end ServerSync
