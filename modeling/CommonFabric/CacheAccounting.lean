import CommonFabric.DocumentCache
import CommonFabric.JsMap
import CommonFabric.JsSet
import Mathlib.Algebra.BigOperators.Finprod

/-!
# What the document caches hold

An engine keeps the documents it has decoded under a byte budget and an entry cap of its
own. Engines that share a coordinator report to it what they keep and what they drop, and
it makes the least recently used of them drop entries when all together hold too much.
-/

/-- A decoded revision, with the encoded size it stands in for. -/
structure DocumentCacheEntry where
  document : Option EntityDocument
  weight : Int

abbrev EntryMap := JsMap DocumentCacheKey DocumentCacheEntry

/-- The bounds of an engine, as `validateDocumentCacheBounds` passes them. -/
structure DocumentCacheBounds where
  budgetBytes : Nat
  maxEntries : Nat
  budget_pos : 0 < budgetBytes
  entries_pos : 0 < maxEntries

structure DocumentCacheStats where
  hits : Nat
  misses : Nat
  evictions : Nat

/-- What an engine keeps of its document cache. -/
structure EngineCache where
  documentCache : EntryMap
  documentCacheBytes : Int
  documentCacheBudgetBytes : Nat
  documentCacheMaxEntries : Nat
  documentCacheStats : DocumentCacheStats
  stagedDocumentCache : Option EntryMap
  inTransaction : Bool

namespace EngineCache

/-- The cache of an engine as `open` makes it. -/
def opened (bounds : DocumentCacheBounds) : EngineCache where
  documentCache := .empty
  documentCacheBytes := 0
  documentCacheBudgetBytes := bounds.budgetBytes
  documentCacheMaxEntries := bounds.maxEntries
  documentCacheStats := ⟨0, 0, 0⟩
  stagedDocumentCache := none
  inTransaction := false

def size (e : EngineCache) : Nat := e.documentCache.entries.length

/-- The engine with its oldest entry, of the key and the weight, dropped. -/
def dropped (e : EngineCache) (oldestKey : DocumentCacheKey) (weight : Int) : EngineCache :=
  { e with
    documentCache := e.documentCache.delete oldestKey
    documentCacheBytes := e.documentCacheBytes - weight
    documentCacheStats :=
      { e.documentCacheStats with evictions := e.documentCacheStats.evictions + 1 } }

/-- The sum of the weights of what is kept. -/
def weightSum (e : EngineCache) : Int := (e.documentCache.values.map (·.weight)).sum

end EngineCache

/-- `DocumentCacheCoordinator`, of engines that stand for themselves in `ι`. -/
structure DocumentCacheCoordinator (ι : Type) where
  budgetBytes : Nat
  bytes : Int
  evictions : Nat
  /-- Least recently used first. -/
  engines : JsSet ι

namespace DocumentCacheCoordinator

variable {ι : Type} [DecidableEq ι]

def touched (c : DocumentCacheCoordinator ι) (i : ι) : DocumentCacheCoordinator ι :=
  { c with engines := (c.engines.delete i).add i }

def released (c : DocumentCacheCoordinator ι) (weight : Int) : DocumentCacheCoordinator ι :=
  { c with bytes := c.bytes - weight }

end DocumentCacheCoordinator

/-- Engines that share a coordinator. -/
structure Caches (ι : Type) where
  engines : ι → EngineCache
  coordinator : DocumentCacheCoordinator ι

namespace Caches

variable {ι : Type} [DecidableEq ι]

def setEngine (c : Caches ι) (i : ι) (e : EngineCache) : Caches ι :=
  { c with engines := Function.update c.engines i e }

/-- The oldest entry dropped, with its weight. -/
def dropOldestDocumentCacheEntry (c : Caches ι) (i : ι) : Caches ι × Int :=
  match (c.engines i).documentCache.entries with
  | [] => (c, 0)
  | (oldestKey, oldest) :: _ =>
    ({ c.setEngine i ((c.engines i).dropped oldestKey oldest.weight) with
        coordinator := c.coordinator.released oldest.weight }, oldest.weight)

/-- Drops the oldest entries as long as a test of the engine and of what is freed asks for
more and there is one; an engine has no more entries to drop than it keeps. -/
def dropWhile (i : ι) (more : EngineCache → Int → Bool) : Nat → Caches ι → Int → Caches ι × Int
  | 0, c, freed => (c, freed)
  | steps + 1, c, freed =>
    if 0 < (c.engines i).size && more (c.engines i) freed then
      let dropped := c.dropOldestDocumentCacheEntry i
      dropWhile i more steps dropped.1 (freed + dropped.2)
    else (c, freed)

def dropEntries (c : Caches ι) (i : ι) (more : EngineCache → Int → Bool) : Caches ι × Int :=
  dropWhile i more (c.engines i).size c 0

def evictDocumentCacheEntries (c : Caches ι) (i : ι) (bytes : Int) : Caches ι × Int :=
  c.dropEntries i fun _ freed => freed < bytes

/-- The engines of the coordinator's set, in order, drop entries until all fit. -/
def trim : List ι → Caches ι → Caches ι
  | [], c => c
  | victim :: rest, c =>
    if c.coordinator.bytes ≤ c.coordinator.budgetBytes then c
    else
      let before := (c.engines victim).documentCacheStats.evictions
      let c' := (c.evictDocumentCacheEntries victim
        (c.coordinator.bytes - c.coordinator.budgetBytes)).1
      let evicted := (c'.engines victim).documentCacheStats.evictions - before
      trim rest { c' with
        coordinator := { c'.coordinator with evictions := c'.coordinator.evictions + evicted } }

/-- `DocumentCacheCoordinator.admitted`. -/
def admitted (c : Caches ι) (i : ι) (weight : Int) : Caches ι :=
  let coordinator := { c.coordinator with bytes := c.coordinator.bytes + weight }.touched i
  trim coordinator.engines.items { c with coordinator }

/-- `DocumentCacheCoordinator.removed`. -/
def removed (c : Caches ι) (i : ι) : DocumentCacheCoordinator ι :=
  if c.coordinator.engines.has i then
    { c.coordinator with
      engines := c.coordinator.engines.delete i
      bytes := c.coordinator.bytes - (c.engines i).documentCacheBytes }
  else c.coordinator

/-- `close`: the cache goes with the engine. -/
def close (c : Caches ι) (i : ι) : Caches ι :=
  { c.setEngine i { c.engines i with documentCache := .empty, documentCacheBytes := 0 } with
    coordinator := c.removed i }

/-- What is staged or kept for a key; what is kept becomes the newest. -/
def cachedDocumentForRevision (c : Caches ι) (i : ι) (key : DocumentCacheKey) :
    Caches ι × Option DocumentCacheEntry :=
  let e := c.engines i
  match e.stagedDocumentCache.bind (·.get key) with
  | some staged => (c, some staged)
  | none => match e.documentCache.get key with
    | none => (c, none)
    | some cached =>
      ({ c.setEngine i { e with documentCache := (e.documentCache.delete key).set key cached } with
          coordinator := c.coordinator.touched i }, some cached)

def cacheDocumentForRevision (c : Caches ι) (i : ι) (key : DocumentCacheKey)
    (entry : DocumentCacheEntry) : Caches ι :=
  let e := c.engines i
  match e.stagedDocumentCache with
  | some staged => c.setEngine i { e with stagedDocumentCache := some (staged.set key entry) }
  | none =>
    if e.inTransaction then c
    else
      let weight := max entry.weight 1
      if e.documentCacheBudgetBytes < weight then c
      else
        let room := (c.dropEntries i fun e _ =>
          e.documentCacheMaxEntries ≤ e.size ||
            e.documentCacheBudgetBytes < e.documentCacheBytes + weight).1
        let e := room.engines i
        admitted (room.setEngine i { e with
          documentCache := e.documentCache.set key ⟨entry.document, weight⟩
          documentCacheBytes := e.documentCacheBytes + weight }) i weight

def count (c : Caches ι) (i : ι) (f : DocumentCacheStats → DocumentCacheStats) : Caches ι :=
  let e := c.engines i
  c.setEngine i { e with documentCacheStats := f e.documentCacheStats }

/-- Lookups that a rebuild makes for a revision to resume from. -/
def lookups (c : Caches ι) (i : ι) (keys : List DocumentCacheKey) : Caches ι :=
  keys.foldl (fun c key => (c.cachedDocumentForRevision i key).1) c

/-- The caches through `readStateForScopeKey` of a stored revision: it is served, or decoded,
with lookups of its own, and kept; `none` where decoding it throws. -/
def readStateForScopeKey (c : Caches ι) (i : ι) (key : DocumentCacheKey)
    (resumes : List DocumentCacheKey) (decoded : Option DocumentCacheEntry) : Caches ι :=
  match c.cachedDocumentForRevision i key with
  | (c, some _) => c.count i fun stats => { stats with hits := stats.hits + 1 }
  | (c, none) =>
    let c := (c.count i fun stats => { stats with misses := stats.misses + 1 }).lookups i resumes
    match decoded with
    | none => c
    | some entry => c.cacheDocumentForRevision i key entry

/-- The end of `runAtomicCommit`: what was staged is kept, unless its key is. -/
def publish (c : Caches ι) (i : ι) : Caches ι :=
  let e := c.engines i
  match e.stagedDocumentCache with
  | none => c
  | some staged =>
    staged.entries.foldl (fun c x =>
      if (c.engines i).documentCache.has x.1 then c
      else c.cacheDocumentForRevision i x.1 x.2) (c.setEngine i { e with stagedDocumentCache := none })

/-- What befalls the caches, on account of one engine. -/
inductive Event (ι : Type) where
  | read (i : ι) (key : DocumentCacheKey) (resumes : List DocumentCacheKey)
      (decoded : Option DocumentCacheEntry)
  | lookup (i : ι) (key : DocumentCacheKey)
  | evict (i : ι) (bytes : Int)
  | close (i : ι)
  /-- A transaction of the host begins or ends. -/
  | transaction (i : ι) (inside : Bool)
  /-- `runAtomicCommit` begins: what is decoded is staged. -/
  | begin (i : ι)
  /-- Its transaction is durable, and what was staged is published. -/
  | commit (i : ι)
  /-- Its transaction is rolled back, and what was staged is lost. -/
  | rollback (i : ι)

def step (c : Caches ι) : Event ι → Caches ι
  | .read i key resumes decoded => c.readStateForScopeKey i key resumes decoded
  | .lookup i key => (c.cachedDocumentForRevision i key).1
  | .evict i bytes => (c.evictDocumentCacheEntries i bytes).1
  | .close i => c.close i
  | .transaction i inside => c.setEngine i { c.engines i with inTransaction := inside }
  | .begin i => c.setEngine i { c.engines i with
      stagedDocumentCache := some .empty, inTransaction := true }
  | .commit i => (c.setEngine i { c.engines i with inTransaction := false }).publish i
  | .rollback i => c.setEngine i { c.engines i with
      stagedDocumentCache := none, inTransaction := false }

/-- Engines just opened, under a coordinator that bounds them. -/
def opened (bounds : ι → DocumentCacheBounds) (totalBudgetBytes : Nat) : Caches ι where
  engines i := .opened (bounds i)
  coordinator := ⟨totalBudgetBytes, 0, 0, .empty⟩

def run (c : Caches ι) (events : List (Event ι)) : Caches ι := events.foldl step c

end Caches

namespace JsMap

variable {κ ν : Type} [DecidableEq κ]

variable {m : JsMap κ ν}

/-- Deleting the oldest key leaves the entries after it. -/
theorem delete_oldest {k : κ} {v : ν} {rest : List (κ × ν)}
    (h : m.entries = (k, v) :: rest) : (m.delete k).entries = rest := by
  have hnodup := m.nodup
  rw [h, List.map_cons, List.nodup_cons] at hnodup
  have hrest : ∀ e ∈ rest, e.1 ≠ k := fun e he heq =>
    hnodup.1 (List.mem_map.2 ⟨e, he, heq⟩)
  change m.entries.filter (fun e => e.1 ≠ k) = rest
  rw [h, List.filter_cons_of_neg (by simp), List.filter_eq_self]
  simpa using hrest

/-- A key that is not there is set at the end. -/
theorem set_new {k : κ} (h : m.get k = none) (v : ν) :
    (m.set k v).entries = m.entries ++ [(k, v)] := by
  have hnone : ∀ e ∈ m.entries, e.1 ≠ k := by
    rw [get, Option.map_eq_none_iff, List.find?_eq_none] at h
    simpa using h
  have hset : ∀ entries : List (κ × ν), (∀ e ∈ entries, e.1 ≠ k) →
      setEntries k v entries = entries ++ [(k, v)] := by
    intro entries
    induction entries with
    | nil => intro _; rfl
    | cons e rest ih =>
      intro hne
      rw [setEntries, if_neg (hne e List.mem_cons_self),
        ih fun e' he' => hne e' (List.mem_cons_of_mem _ he'), List.cons_append]
  exact hset m.entries hnone

/-- A key deleted and set anew keeps the entries, in another order. -/
theorem promote_perm {k : κ} {v : ν} (h : m.get k = some v) :
    ((m.delete k).set k v).entries.Perm m.entries := by
  rw [set_new (get_delete_self m k)]
  obtain ⟨before, after, hsplit⟩ := List.append_of_mem (mem_of_get h)
  have hnodup := m.nodup
  rw [hsplit, List.map_append, List.map_cons, List.nodup_append] at hnodup
  have hbefore : ∀ e ∈ before, e.1 ≠ k := fun e he heq =>
    hnodup.2.2 e.1 (List.mem_map.2 ⟨e, he, rfl⟩) k List.mem_cons_self heq
  have hafter : ∀ e ∈ after, e.1 ≠ k := fun e he heq =>
    (List.nodup_cons.1 hnodup.2.1).1 (List.mem_map.2 ⟨e, he, heq⟩)
  have hdelete : (m.delete k).entries = before ++ after := by
    change m.entries.filter (fun e => e.1 ≠ k) = before ++ after
    rw [hsplit, List.filter_append, List.filter_cons_of_neg (by simp),
      List.filter_eq_self.2 (by simpa using hbefore), List.filter_eq_self.2 (by simpa using hafter)]
  rw [hdelete, hsplit]
  exact (List.perm_append_singleton _ _).trans List.perm_middle.symm

theorem get_none_of_perm {m' : JsMap κ ν} (h : m'.entries.Perm m.entries) {k : κ}
    (hnone : m.get k = none) : m'.get k = none := by
  cases hget : m'.get k with
  | none => rfl
  | some v =>
    rw [get_eq_some_iff.2 (h.subset (mem_of_get hget))] at hnone
    cases hnone

end JsMap

namespace Caches

variable {ι : Type} [DecidableEq ι] {c c' : Caches ι} {i : ι}

@[simp] theorem setEngine_self (c : Caches ι) (i : ι) (e : EngineCache) :
    (c.setEngine i e).engines i = e := Function.update_self ..

theorem setEngine_other (c : Caches ι) {i j : ι} (h : j ≠ i) (e : EngineCache) :
    (c.setEngine i e).engines j = c.engines j := Function.update_of_ne h ..

/-- What holds of the engine put in place of another, and of the others, holds of each. -/
theorem forall_setEngine {P : ι → EngineCache → Prop} {e : EngineCache} (he : P i e)
    (h : ∀ j, P j (c.engines j)) (j : ι) : P j ((c.setEngine i e).engines j) := by
  by_cases hji : j = i
  · rw [hji, setEngine_self]
    exact he
  · rw [setEngine_other c hji]
    exact h j

/-- The engines the coordinator has heard of and not seen closed. -/
def listedEngines (c : Caches ι) : Finset ι := c.coordinator.engines.items.toFinset

theorem mem_listedEngines : i ∈ c.listedEngines ↔ i ∈ c.coordinator.engines := List.mem_toFinset

/-- A sum over engines among which one is replaced. -/
theorem sum_setEngine (c : Caches ι) {s : Finset ι} (hi : i ∈ s) (e : EngineCache) :
    ∑ j ∈ s, ((c.setEngine i e).engines j).documentCacheBytes =
      ∑ j ∈ s, (c.engines j).documentCacheBytes - (c.engines i).documentCacheBytes +
        e.documentCacheBytes := by
  rw [← Finset.add_sum_erase s (fun j => (c.engines j).documentCacheBytes) hi,
    ← Finset.add_sum_erase s (fun j => ((c.setEngine i e).engines j).documentCacheBytes) hi,
    setEngine_self]
  have hsame : ∑ j ∈ s.erase i, ((c.setEngine i e).engines j).documentCacheBytes =
      ∑ j ∈ s.erase i, (c.engines j).documentCacheBytes := by
    apply Finset.sum_congr rfl
    intro j hj
    rw [setEngine_other c (Finset.ne_of_mem_erase hj)]
  rw [hsame]
  omega

end Caches

namespace EngineCache

/-- An engine's byte count is that of the entries it keeps. -/
structure Counted (e : EngineCache) : Prop where
  bytes : e.documentCacheBytes = e.weightSum
  weights : ∀ x ∈ e.documentCache.entries, 0 ≤ x.2.weight

/-- The engine after entries were dropped. -/
structure Shrunk (e e' : EngineCache) : Prop where
  bytes : e'.documentCacheBytes ≤ e.documentCacheBytes
  size : e'.size ≤ e.size
  budget : e'.documentCacheBudgetBytes = e.documentCacheBudgetBytes
  cap : e'.documentCacheMaxEntries = e.documentCacheMaxEntries
  missing : ∀ key, e.documentCache.get key = none → e'.documentCache.get key = none

theorem Shrunk.refl (e : EngineCache) : Shrunk e e :=
  ⟨le_refl _, le_refl _, rfl, rfl, fun _ h => h⟩

theorem Shrunk.trans {e e' e'' : EngineCache} (h : Shrunk e e') (h' : Shrunk e' e'') :
    Shrunk e e'' where
  bytes := h'.bytes.trans h.bytes
  size := h'.size.trans h.size
  budget := h'.budget.trans h.budget
  cap := h'.cap.trans h.cap
  missing key hnone := h'.missing key (h.missing key hnone)

variable {e : EngineCache} {key : DocumentCacheKey} {entry : DocumentCacheEntry}
  {rest : List (DocumentCacheKey × DocumentCacheEntry)}

theorem weightSum_eq (e : EngineCache) :
    e.weightSum = (e.documentCache.entries.map fun x => x.2.weight).sum := by
  rw [weightSum, JsMap.values, List.map_map]
  rfl

theorem weightSum_of_size (h : e.size = 0) : e.weightSum = 0 := by
  rw [weightSum_eq, List.length_eq_zero_iff.1 h]
  rfl

theorem Counted.dropped (h : e.Counted) (hentries : e.documentCache.entries = (key, entry) :: rest) :
    (e.dropped key entry.weight).Counted where
  bytes := by
    have hsum := h.bytes
    rw [weightSum_eq, hentries, List.map_cons, List.sum_cons] at hsum
    rw [weightSum_eq, EngineCache.dropped]
    simp only [JsMap.delete_oldest hentries] at hsum ⊢
    omega
  weights x hx := by
    apply h.weights x
    rw [hentries]
    exact List.mem_cons_of_mem _ (JsMap.delete_oldest hentries ▸ hx)

theorem size_dropped (hentries : e.documentCache.entries = (key, entry) :: rest) :
    (e.dropped key entry.weight).size + 1 = e.size := by
  simp only [size, EngineCache.dropped, JsMap.delete_oldest hentries, hentries, List.length_cons]

theorem Counted.shrunk (h : e.Counted) (hentries : e.documentCache.entries = (key, entry) :: rest) :
    e.Shrunk (e.dropped key entry.weight) where
  bytes := by
    have hweight := h.weights (key, entry) (by rw [hentries]; exact List.mem_cons_self)
    simp only [EngineCache.dropped] at hweight ⊢
    omega
  size := by
    have hsize := size_dropped hentries
    omega
  budget := rfl
  cap := rfl
  missing key' hnone := by
    rw [EngineCache.dropped, JsMap.get_delete, hnone, ite_self]

end EngineCache

namespace Caches

variable {ι : Type} [DecidableEq ι] {c c' : Caches ι} {i : ι}

/-- The bytes of every engine and of the coordinator are those of the entries kept. -/
structure Counted (c : Caches ι) : Prop where
  engines : ∀ i, (c.engines i).Counted
  listed : ∀ i, i ∉ c.listedEngines → (c.engines i).size = 0
  total : c.coordinator.bytes = ∑ i ∈ c.listedEngines, (c.engines i).documentCacheBytes

/-- The caches after entries were dropped. -/
structure Shrunk (c c' : Caches ι) : Prop where
  engines : ∀ i, (c.engines i).Shrunk (c'.engines i)
  listed : c'.coordinator.engines = c.coordinator.engines
  totalBudget : c'.coordinator.budgetBytes = c.coordinator.budgetBytes
  total : c'.coordinator.bytes ≤ c.coordinator.bytes

omit [DecidableEq ι] in
theorem Shrunk.refl (c : Caches ι) : Shrunk c c :=
  ⟨fun i => .refl (c.engines i), rfl, rfl, le_refl _⟩

omit [DecidableEq ι] in
theorem Shrunk.trans {c'' : Caches ι} (h : Shrunk c c') (h' : Shrunk c' c'') : Shrunk c c'' where
  engines i := (h.engines i).trans (h'.engines i)
  listed := h'.listed.trans h.listed
  totalBudget := h'.totalBudget.trans h.totalBudget
  total := h'.total.trans h.total

/-- What one drop does. -/
structure DropSpec (c : Caches ι) (i : ι) (result : Caches ι × Int) : Prop where
  counted : result.1.Counted
  shrunk : Shrunk c result.1
  freed : result.2 = c.coordinator.bytes - result.1.coordinator.bytes
  size : 0 < (c.engines i).size → (result.1.engines i).size + 1 = (c.engines i).size

theorem Counted.drop (h : c.Counted) (i : ι) :
    DropSpec c i (c.dropOldestDocumentCacheEntry i) := by
  unfold dropOldestDocumentCacheEntry
  cases hentries : (c.engines i).documentCache.entries with
  | nil =>
    refine ⟨h, .refl c, (Int.sub_self _).symm, fun hpos => ?_⟩
    rw [EngineCache.size, hentries] at hpos
    cases hpos
  | cons oldest rest =>
    obtain ⟨key, entry⟩ := oldest
    have hcounted := (h.engines i).dropped hentries
    have hshrunk := (h.engines i).shrunk hentries
    have hsize := EngineCache.size_dropped hentries
    have hweight : 0 ≤ entry.weight :=
      (h.engines i).weights (key, entry) (hentries ▸ List.mem_cons_self)
    have hlisted : i ∈ c.listedEngines := by
      by_contra hnot
      have hnone := h.listed i hnot
      omega
    have hsum := sum_setEngine c hlisted ((c.engines i).dropped key entry.weight)
    rw [← h.total] at hsum
    refine ⟨⟨?_, fun j hj => ?_, ?_⟩, ⟨?_, rfl, rfl, ?_⟩, ?_, fun _ => ?_⟩
    · exact forall_setEngine (P := fun _ e => e.Counted) hcounted h.engines
    · exact Nat.le_zero.1 (h.listed j hj ▸ forall_setEngine
        (P := fun j e => e.size ≤ (c.engines j).size) hshrunk.size (fun _ => le_refl _) j)
    · refine Eq.trans ?_ hsum.symm
      simp only [DocumentCacheCoordinator.released, EngineCache.dropped]
      omega
    · exact forall_setEngine (P := fun j e => (c.engines j).Shrunk e) hshrunk fun j => .refl _
    · simp only [DocumentCacheCoordinator.released]
      omega
    · simp only [DocumentCacheCoordinator.released]
      omega
    · simpa using hsize

/-- What a loop of drops does, of which some bytes were freed before. -/
structure LoopSpec (c : Caches ι) (i : ι) (more : EngineCache → Int → Bool) (freed : Int)
    (result : Caches ι × Int) : Prop where
  counted : result.1.Counted
  shrunk : Shrunk c result.1
  freed : result.2 - freed = c.coordinator.bytes - result.1.coordinator.bytes
  done : (result.1.engines i).size = 0 ∨ more (result.1.engines i) result.2 = false

theorem Counted.dropWhile {more : EngineCache → Int → Bool} {steps : Nat} :
    ∀ {c : Caches ι} {freed : Int}, c.Counted → (c.engines i).size ≤ steps →
      LoopSpec c i more freed (Caches.dropWhile i more steps c freed) := by
  induction steps with
  | zero =>
    intro c freed h hsize
    exact ⟨h, .refl c, by simp [Caches.dropWhile], .inl (Nat.le_zero.1 hsize)⟩
  | succ steps ih =>
    intro c freed h hsize
    rw [Caches.dropWhile]
    by_cases hmore : (decide (0 < (c.engines i).size) && more (c.engines i) freed) = true
    · rw [if_pos hmore]
      have hpos : 0 < (c.engines i).size := by
        rw [Bool.and_eq_true, decide_eq_true_eq] at hmore
        exact hmore.1
      have hdrop := h.drop i
      have hone := hdrop.size hpos
      have hfreed := hdrop.freed
      have hrest : LoopSpec (c.dropOldestDocumentCacheEntry i).1 i more
          (freed + (c.dropOldestDocumentCacheEntry i).2) (Caches.dropWhile i more steps
            (c.dropOldestDocumentCacheEntry i).1 (freed + (c.dropOldestDocumentCacheEntry i).2)) :=
        ih hdrop.counted (by omega)
      have hrestFreed := hrest.freed
      exact ⟨hrest.counted, hdrop.shrunk.trans hrest.shrunk, by dsimp only; omega, hrest.done⟩
    · rw [if_neg hmore]
      refine ⟨h, .refl c, by dsimp only; omega, ?_⟩
      by_cases hempty : (c.engines i).size = 0
      · exact .inl hempty
      · right
        simpa [Nat.pos_of_ne_zero hempty] using hmore

theorem Counted.dropEntries (h : c.Counted) (i : ι) (more : EngineCache → Int → Bool) :
    LoopSpec c i more 0 (c.dropEntries i more) := h.dropWhile (le_refl _)

/-- Evictions free what is asked for, or all there is. -/
theorem Counted.evict (h : c.Counted) (i : ι) (bytes : Int) :
    (c.evictDocumentCacheEntries i bytes).1.Counted ∧
      Shrunk c (c.evictDocumentCacheEntries i bytes).1 ∧
      (((c.evictDocumentCacheEntries i bytes).1.engines i).size = 0 ∨
        (c.evictDocumentCacheEntries i bytes).1.coordinator.bytes ≤ c.coordinator.bytes - bytes) := by
  have hloop := h.dropEntries i fun _ freed => decide (freed < bytes)
  refine ⟨hloop.counted, hloop.shrunk, ?_⟩
  have hfreed := hloop.freed
  cases hloop.done with
  | inl hempty => exact .inl hempty
  | inr hdone =>
    right
    rw [decide_eq_false_iff_not] at hdone
    rw [evictDocumentCacheEntries]
    omega

/-- The count of evictions is no part of the account. -/
theorem Counted.countEvictions (h : c.Counted) (evictions : Nat) :
    Counted { c with coordinator := { c.coordinator with evictions } } :=
  ⟨h.engines, h.listed, h.total⟩

/-- Every engine asked to, the caches fit the budget or the engines are empty. -/
theorem Counted.trim (h : c.Counted) (victims : List ι) :
    (Caches.trim victims c).Counted ∧ Shrunk c (Caches.trim victims c) ∧
      ((Caches.trim victims c).coordinator.bytes ≤ c.coordinator.budgetBytes ∨
        ∀ i ∈ victims, ((Caches.trim victims c).engines i).size = 0) := by
  induction victims generalizing c with
  | nil => exact ⟨h, .refl c, .inr (by simp)⟩
  | cons victim rest ih =>
    rw [Caches.trim]
    by_cases hfits : c.coordinator.bytes ≤ c.coordinator.budgetBytes
    · rw [if_pos hfits]
      exact ⟨h, .refl c, .inl hfits⟩
    · rw [if_neg hfits]
      obtain ⟨hcounted, hshrunk, hdone⟩ :=
        h.evict victim (c.coordinator.bytes - c.coordinator.budgetBytes)
      dsimp only
      generalize (c.evictDocumentCacheEntries victim
        (c.coordinator.bytes - c.coordinator.budgetBytes)).1 = c' at hcounted hshrunk hdone ⊢
      generalize c'.coordinator.evictions + _ = evictions
      obtain ⟨hcounted', hshrunk', hrest⟩ := ih (hcounted.countEvictions evictions)
      have hbudget : c'.coordinator.budgetBytes = c.coordinator.budgetBytes := hshrunk.totalBudget
      refine ⟨hcounted', hshrunk.trans ⟨hshrunk'.engines, hshrunk'.listed, hshrunk'.totalBudget,
        hshrunk'.total⟩, ?_⟩
      have htotal := hshrunk'.total
      dsimp only at htotal
      cases hrest with
      | inl hfits =>
        left
        rw [← hbudget]
        exact hfits
      | inr hempty =>
        cases hdone with
        | inr hfreed => left; omega
        | inl hvictim =>
          right
          intro i hi
          cases List.mem_cons.1 hi with
          | inl heq =>
            have hsize := (hshrunk'.engines victim).size
            rw [heq]
            dsimp only at hsize
            omega
          | inr hmem => exact hempty i hmem

/-- All engines asked to, the caches fit the budget. -/
theorem Counted.trim_fits (h : c.Counted) :
    (Caches.trim c.coordinator.engines.items c).coordinator.bytes ≤ c.coordinator.budgetBytes := by
  obtain ⟨hcounted, hshrunk, hdone⟩ := h.trim c.coordinator.engines.items
  cases hdone with
  | inl hfits => exact hfits
  | inr hempty =>
    rw [hcounted.total]
    have hzero : ∀ i ∈ (Caches.trim c.coordinator.engines.items c).listedEngines,
        ((Caches.trim c.coordinator.engines.items c).engines i).documentCacheBytes = 0 := by
      intro i hi
      rw [mem_listedEngines, hshrunk.listed] at hi
      rw [(hcounted.engines i).bytes, EngineCache.weightSum_of_size (hempty i hi)]
    rw [Finset.sum_eq_zero hzero]
    exact Int.natCast_nonneg _

/-- The caches keep their account, and all stay within their bounds. -/
structure Accounted (bounds : ι → DocumentCacheBounds) (totalBudgetBytes : Nat) (c : Caches ι) :
    Prop where
  counted : c.Counted
  opened : ∀ i, (c.engines i).documentCacheBudgetBytes = (bounds i).budgetBytes ∧
    (c.engines i).documentCacheMaxEntries = (bounds i).maxEntries
  budget : ∀ i, (c.engines i).documentCacheBytes ≤ (bounds i).budgetBytes
  cap : ∀ i, (c.engines i).size ≤ (bounds i).maxEntries
  openedTotal : c.coordinator.budgetBytes = totalBudgetBytes
  totalBudget : c.coordinator.bytes ≤ totalBudgetBytes

variable {bounds : ι → DocumentCacheBounds} {totalBudgetBytes : Nat}

theorem opened_accounted (bounds : ι → DocumentCacheBounds) (totalBudgetBytes : Nat) :
    Accounted bounds totalBudgetBytes (opened bounds totalBudgetBytes) where
  counted :=
    { engines := fun i => ⟨rfl, by intro x hx; cases hx⟩
      listed := fun i _ => rfl
      total := rfl }
  opened i := ⟨rfl, rfl⟩
  budget i := Int.natCast_nonneg _
  cap i := Nat.zero_le _
  openedTotal := rfl
  totalBudget := Int.natCast_nonneg _

/-- Entries dropped keep the caches within their bounds. -/
theorem Accounted.shrink (h : Accounted bounds totalBudgetBytes c) (hcounted : c'.Counted)
    (hshrunk : Shrunk c c') : Accounted bounds totalBudgetBytes c' where
  counted := hcounted
  opened i := by
    rw [(hshrunk.engines i).budget, (hshrunk.engines i).cap]
    exact h.opened i
  budget i := (hshrunk.engines i).bytes.trans (h.budget i)
  cap i := (hshrunk.engines i).size.trans (h.cap i)
  openedTotal := hshrunk.totalBudget.trans h.openedTotal
  totalBudget := hshrunk.total.trans h.totalBudget

/-- An engine with the same entries, in whatever order, and the same bounds. -/
theorem Accounted.setEngine (h : Accounted bounds totalBudgetBytes c) {e : EngineCache}
    (hentries : e.documentCache.entries.Perm (c.engines i).documentCache.entries)
    (hbytes : e.documentCacheBytes = (c.engines i).documentCacheBytes)
    (hbudget : e.documentCacheBudgetBytes = (c.engines i).documentCacheBudgetBytes)
    (hcap : e.documentCacheMaxEntries = (c.engines i).documentCacheMaxEntries) :
    Accounted bounds totalBudgetBytes (c.setEngine i e) := by
  have hsize : e.size = (c.engines i).size := hentries.length_eq
  have hsum : e.weightSum = (c.engines i).weightSum := by
    rw [EngineCache.weightSum_eq, EngineCache.weightSum_eq]
    exact (hentries.map _).sum_eq
  have hcounted := (h.counted.engines i).bytes
  have hbytesEq : ∀ j, ((c.setEngine i e).engines j).documentCacheBytes =
      (c.engines j).documentCacheBytes :=
    forall_setEngine (P := fun j e => e.documentCacheBytes = (c.engines j).documentCacheBytes)
      hbytes fun j => rfl
  have hsizeEq : ∀ j, ((c.setEngine i e).engines j).size = (c.engines j).size :=
    forall_setEngine (P := fun j e => e.size = (c.engines j).size) hsize fun j => rfl
  refine ⟨⟨?_, fun j hj => ?_, ?_⟩, ?_, fun j => ?_, fun j => ?_, h.openedTotal, h.totalBudget⟩
  · refine forall_setEngine (P := fun _ e => e.Counted) ⟨by rw [hbytes, hsum, hcounted], ?_⟩
      h.counted.engines
    intro x hx
    exact (h.counted.engines i).weights x (hentries.subset hx)
  · rw [hsizeEq]
    exact h.counted.listed j hj
  · refine h.counted.total.trans (Finset.sum_congr rfl fun j _ => ?_)
    rw [hbytesEq]
  · refine forall_setEngine (P := fun j e => e.documentCacheBudgetBytes = (bounds j).budgetBytes ∧
      e.documentCacheMaxEntries = (bounds j).maxEntries) ?_ h.opened
    rw [hbudget, hcap]
    exact h.opened i
  · rw [hbytesEq]
    exact h.budget j
  · rw [hsizeEq]
    exact h.cap j

theorem touched_listed (c : Caches ι) (i : ι) :
    listedEngines { c with coordinator := c.coordinator.touched i } =
      insert i c.listedEngines := by
  ext j
  rw [mem_listedEngines, Finset.mem_insert, mem_listedEngines, DocumentCacheCoordinator.touched,
    JsSet.mem_add, JsSet.mem_delete]
  tauto

/-- An engine the coordinator has not heard of keeps nothing. -/
theorem Counted.sum_insert (h : c.Counted) (i : ι) :
    ∑ j ∈ insert i c.listedEngines, (c.engines j).documentCacheBytes = c.coordinator.bytes := by
  by_cases hi : i ∈ c.listedEngines
  · rw [Finset.insert_eq_of_mem hi, h.total]
  · rw [Finset.sum_insert hi, (h.engines i).bytes, EngineCache.weightSum_of_size (h.listed i hi),
      h.total, zero_add]

theorem Accounted.touched (h : Accounted bounds totalBudgetBytes c) (i : ι) :
    Accounted bounds totalBudgetBytes { c with coordinator := c.coordinator.touched i } := by
  refine { h with counted := ⟨h.counted.engines, fun j hj => ?_, ?_⟩ }
  · rw [touched_listed, Finset.mem_insert, not_or] at hj
    exact h.counted.listed j hj.2
  · rw [touched_listed]
    exact (h.counted.sum_insert i).symm

/-- What a lookup keeps: the account, and which keys are missing. -/
structure LookupSpec (bounds : ι → DocumentCacheBounds) (totalBudgetBytes : Nat) (c : Caches ι)
    (i : ι) (c' : Caches ι) : Prop where
  accounted : Accounted bounds totalBudgetBytes c'
  missing : ∀ key, (c.engines i).documentCache.get key = none →
    (c'.engines i).documentCache.get key = none

theorem Accounted.lookup (h : Accounted bounds totalBudgetBytes c) (i : ι) (key : DocumentCacheKey) :
    LookupSpec bounds totalBudgetBytes c i (c.cachedDocumentForRevision i key).1 := by
  unfold cachedDocumentForRevision
  dsimp only
  cases (c.engines i).stagedDocumentCache.bind (·.get key) with
  | some staged => exact ⟨h, fun _ hnone => hnone⟩
  | none =>
    dsimp only
    cases hcached : (c.engines i).documentCache.get key with
    | none => exact ⟨h, fun _ hnone => hnone⟩
    | some cached =>
      have hperm := JsMap.promote_perm hcached
      have hset : Accounted bounds totalBudgetBytes (c.setEngine i { c.engines i with
          documentCache := ((c.engines i).documentCache.delete key).set key cached }) :=
        h.setEngine hperm rfl rfl rfl
      refine ⟨hset.touched i, fun key' hnone => ?_⟩
      dsimp only
      rw [setEngine_self]
      exact JsMap.get_none_of_perm hperm hnone

theorem Accounted.lookups (h : Accounted bounds totalBudgetBytes c) (i : ι)
    (keys : List DocumentCacheKey) :
    LookupSpec bounds totalBudgetBytes c i (c.lookups i keys) := by
  induction keys generalizing c with
  | nil => exact ⟨h, fun _ hnone => hnone⟩
  | cons key keys ih =>
    have hone := h.lookup i key
    have hrest := ih hone.accounted
    exact ⟨hrest.accounted, fun key' hnone => hrest.missing key' (hone.missing key' hnone)⟩

/-- A lookup that finds nothing was of a key that is missing. -/
theorem missing_of_lookup {key : DocumentCacheKey}
    (h : (c.cachedDocumentForRevision i key).2 = none) :
    (c.engines i).documentCache.get key = none := by
  simp only [cachedDocumentForRevision] at h
  cases hstaged : (c.engines i).stagedDocumentCache.bind (·.get key) with
  | some staged => rw [hstaged] at h; cases h
  | none =>
    rw [hstaged] at h
    cases hcached : (c.engines i).documentCache.get key with
    | none => rfl
    | some cached => rw [hcached] at h; cases h

/-- A new entry that there is room for. -/
theorem Accounted.admitted {room : Caches ι} (h : Accounted bounds totalBudgetBytes room)
    {key : DocumentCacheKey} (hmissing : (room.engines i).documentCache.get key = none)
    {document : Option EntityDocument} {weight : Int} (hweight : 1 ≤ weight)
    (hbudget : (room.engines i).documentCacheBytes + weight ≤ (bounds i).budgetBytes)
    (hcap : (room.engines i).size + 1 ≤ (bounds i).maxEntries) :
    Accounted bounds totalBudgetBytes ((room.setEngine i { room.engines i with
      documentCache := (room.engines i).documentCache.set key ⟨document, weight⟩
      documentCacheBytes := (room.engines i).documentCacheBytes + weight }).admitted i weight) := by
  generalize he : ({ room.engines i with
    documentCache := (room.engines i).documentCache.set key ⟨document, weight⟩
    documentCacheBytes := (room.engines i).documentCacheBytes + weight } : EngineCache) = e
  have hentries : e.documentCache.entries =
      (room.engines i).documentCache.entries ++ [(key, ⟨document, weight⟩)] := by
    rw [← he]
    exact JsMap.set_new hmissing _
  have hbytes : e.documentCacheBytes = (room.engines i).documentCacheBytes + weight := by
    rw [← he]
  have hsize : e.size = (room.engines i).size + 1 := by
    rw [EngineCache.size, hentries, List.length_append]
    rfl
  have hsum : e.weightSum = (room.engines i).weightSum + weight := by
    rw [EngineCache.weightSum_eq, EngineCache.weightSum_eq, hentries, List.map_append,
      List.sum_append, List.map_singleton, List.sum_singleton]
  have hengine := h.counted.engines i
  -- The caches with the entry, before any are asked to drop theirs.
  generalize hheld : ({ room.setEngine i e with
    coordinator := { room.coordinator with
      bytes := room.coordinator.bytes + weight }.touched i } : Caches ι) = held
  have hlisted : held.listedEngines = insert i room.listedEngines := by
    rw [← hheld]
    exact touched_listed room i
  have hcounted : held.Counted := by
    refine ⟨?_, fun j hj => ?_, ?_⟩
    · rw [← hheld]
      refine forall_setEngine (P := fun _ e => e.Counted) ⟨?_, ?_⟩ h.counted.engines
      · rw [hbytes, hsum, hengine.bytes]
      · intro x hx
        rw [hentries] at hx
        cases List.mem_append.1 hx with
        | inl hold => exact hengine.weights x hold
        | inr hnew =>
          rw [List.mem_singleton.1 hnew]
          dsimp only
          omega
    · rw [hlisted, Finset.mem_insert, not_or] at hj
      rw [← hheld]
      dsimp only
      rw [setEngine_other room hj.1]
      exact h.counted.listed j hj.2
    · have hreplaced := sum_setEngine room (Finset.mem_insert_self i room.listedEngines) e
      rw [h.counted.sum_insert i, hbytes] at hreplaced
      rw [hlisted, ← hheld]
      refine Eq.trans ?_ hreplaced.symm
      simp only [DocumentCacheCoordinator.touched]
      omega
  have htrim := hcounted.trim held.coordinator.engines.items
  have hfits := hcounted.trim_fits
  have hadmitted : (room.setEngine i e).admitted i weight =
      trim held.coordinator.engines.items held := by
    rw [← hheld]
    rfl
  rw [hadmitted]
  have hopened : ∀ j, (held.engines j).documentCacheBudgetBytes = (bounds j).budgetBytes ∧
      (held.engines j).documentCacheMaxEntries = (bounds j).maxEntries := by
    rw [← hheld]
    refine forall_setEngine (P := fun j e => e.documentCacheBudgetBytes = (bounds j).budgetBytes ∧
      e.documentCacheMaxEntries = (bounds j).maxEntries) ?_ h.opened
    rw [← he]
    exact h.opened i
  have hwithin : ∀ j, (held.engines j).documentCacheBytes ≤ (bounds j).budgetBytes ∧
      (held.engines j).size ≤ (bounds j).maxEntries := by
    rw [← hheld]
    refine forall_setEngine (P := fun j e => e.documentCacheBytes ≤ (bounds j).budgetBytes ∧
      e.size ≤ (bounds j).maxEntries) ?_ fun j => ⟨h.budget j, h.cap j⟩
    rw [hbytes, hsize]
    exact ⟨hbudget, hcap⟩
  have htotal : held.coordinator.budgetBytes = totalBudgetBytes := by
    rw [← hheld]
    exact h.openedTotal
  obtain ⟨hcounted', hshrunk, -⟩ := htrim
  refine ⟨hcounted', fun j => ?_, fun j => ?_, fun j => ?_, ?_, ?_⟩
  · rw [(hshrunk.engines j).budget, (hshrunk.engines j).cap]
    exact hopened j
  · exact (hshrunk.engines j).bytes.trans (hwithin j).1
  · exact (hshrunk.engines j).size.trans (hwithin j).2
  · exact hshrunk.totalBudget.trans htotal
  · rw [htotal] at hfits
    exact hfits

section

variable (h : Accounted bounds totalBudgetBytes c)
include h

theorem Accounted.cache {key : DocumentCacheKey}
    (hmissing : (c.engines i).documentCache.get key = none) (entry : DocumentCacheEntry) :
    Accounted bounds totalBudgetBytes (c.cacheDocumentForRevision i key entry) := by
  unfold cacheDocumentForRevision
  dsimp only
  cases (c.engines i).stagedDocumentCache with
  | some staged => exact h.setEngine (.refl _) rfl rfl rfl
  | none =>
    dsimp only
    split
    · exact h
    · split
      · exact h
      · rename_i _ hfits
        have hloop := h.counted.dropEntries i fun e _ =>
          decide (e.documentCacheMaxEntries ≤ e.size) ||
            decide (e.documentCacheBudgetBytes < e.documentCacheBytes + max entry.weight 1)
        generalize (c.dropEntries i fun e _ => decide (e.documentCacheMaxEntries ≤ e.size) ||
          decide (e.documentCacheBudgetBytes < e.documentCacheBytes + max entry.weight 1)) = dropped
          at hloop ⊢
        have hroom := h.shrink hloop.counted hloop.shrunk
        have hopened := hroom.opened i
        have hpos := (bounds i).entries_pos
        have hbefore := (h.opened i).1
        refine hroom.admitted ((hloop.shrunk.engines i).missing key hmissing) (le_max_right _ _)
          ?_ ?_
        · cases hloop.done with
          | inl hempty =>
            rw [(hloop.counted.engines i).bytes, EngineCache.weightSum_of_size hempty]
            omega
          | inr hdone =>
            simp only [Bool.or_eq_false_iff, decide_eq_false_iff_not] at hdone
            omega
        · cases hloop.done with
          | inl hempty => omega
          | inr hdone =>
            simp only [Bool.or_eq_false_iff, decide_eq_false_iff_not] at hdone
            omega

theorem Accounted.read (i : ι) (key : DocumentCacheKey) (resumes : List DocumentCacheKey)
    (decoded : Option DocumentCacheEntry) :
    Accounted bounds totalBudgetBytes (c.readStateForScopeKey i key resumes decoded) := by
  have hlookup := h.lookup i key
  have hmissing : (c.cachedDocumentForRevision i key).2 = none →
      (c.engines i).documentCache.get key = none := missing_of_lookup
  unfold readStateForScopeKey
  generalize c.cachedDocumentForRevision i key = found at hlookup hmissing ⊢
  obtain ⟨c', cached⟩ := found
  cases cached with
  | some cached => exact hlookup.accounted.setEngine (.refl _) rfl rfl rfl
  | none =>
    dsimp only
    have hcount : Accounted bounds totalBudgetBytes
        (c'.count i fun stats => { stats with misses := stats.misses + 1 }) :=
      hlookup.accounted.setEngine (.refl _) rfl rfl rfl
    have hresumes := hcount.lookups i resumes
    cases decoded with
    | none => exact hresumes.accounted
    | some entry =>
      refine hresumes.accounted.cache (hresumes.missing key ?_) entry
      rw [count, setEngine_self]
      exact hlookup.missing key (hmissing rfl)

theorem Accounted.publish (i : ι) : Accounted bounds totalBudgetBytes (c.publish i) := by
  unfold Caches.publish
  dsimp only
  cases (c.engines i).stagedDocumentCache with
  | none => exact h
  | some staged =>
    dsimp only
    have hunstaged : Accounted bounds totalBudgetBytes
        (c.setEngine i { c.engines i with stagedDocumentCache := none }) :=
      h.setEngine (.refl _) rfl rfl rfl
    generalize c.setEngine i { c.engines i with stagedDocumentCache := none } = c' at hunstaged ⊢
    induction staged.entries generalizing c' with
    | nil => exact hunstaged
    | cons x rest ih =>
      rw [List.foldl_cons]
      apply ih
      split
      · exact hunstaged
      · rename_i hmissing
        apply hunstaged.cache
        simpa [JsMap.has] using hmissing

theorem Accounted.close (i : ι) : Accounted bounds totalBudgetBytes (c.close i) := by
  generalize he : ({ c.engines i with
    documentCache := .empty, documentCacheBytes := 0 } : EngineCache) = e
  have hsize : e.size = 0 := by rw [← he]; rfl
  have hbytes : e.documentCacheBytes = 0 := by rw [← he]
  have hnonneg : 0 ≤ (c.engines i).documentCacheBytes := by
    rw [(h.counted.engines i).bytes, EngineCache.weightSum_eq]
    apply List.sum_nonneg
    intro w hw
    obtain ⟨x, hx, rfl⟩ := List.mem_map.1 hw
    exact (h.counted.engines i).weights x hx
  have hlisted : ∀ j, j ∈ (c.close i).listedEngines ↔ j ≠ i ∧ j ∈ c.listedEngines := by
    intro j
    rw [mem_listedEngines, mem_listedEngines]
    unfold Caches.close removed
    dsimp only
    split
    · exact JsSet.mem_delete
    · rename_i hnot
      rw [JsSet.has_iff] at hnot
      constructor
      · exact fun hj => ⟨fun heq => hnot (heq ▸ hj), hj⟩
      · exact fun hj => hj.2
  have hclosed : (c.close i).engines = (c.setEngine i e).engines := by
    rw [← he]
    rfl
  have htotal : (c.close i).coordinator.bytes =
      c.coordinator.bytes - (c.engines i).documentCacheBytes := by
    unfold Caches.close removed
    dsimp only
    split
    · rfl
    · rename_i hnot
      rw [JsSet.has_iff, ← mem_listedEngines] at hnot
      rw [(h.counted.engines i).bytes, EngineCache.weightSum_of_size (h.counted.listed i hnot),
        Int.sub_zero]
  have hbudget : (c.close i).coordinator.budgetBytes = c.coordinator.budgetBytes := by
    unfold Caches.close removed
    dsimp only
    split <;> rfl
  refine ⟨⟨?_, fun j hj => ?_, ?_⟩, ?_, ?_, ?_, hbudget.trans h.openedTotal, ?_⟩
  · rw [hclosed]
    refine forall_setEngine (P := fun _ e => e.Counted) ⟨?_, ?_⟩ h.counted.engines
    · rw [hbytes, EngineCache.weightSum_of_size hsize]
    · intro x hx
      rw [List.length_eq_zero_iff.1 hsize] at hx
      cases hx
  · rw [hlisted, not_and] at hj
    rw [hclosed]
    by_cases hji : j = i
    · rw [hji, setEngine_self, hsize]
    · rw [setEngine_other c hji]
      exact h.counted.listed j (hj hji)
  · have hset : (c.close i).listedEngines = (insert i c.listedEngines).erase i := by
      ext j
      rw [hlisted, Finset.mem_erase, Finset.mem_insert]
      tauto
    have hreplaced := sum_setEngine c (Finset.mem_insert_self i c.listedEngines) e
    rw [h.counted.sum_insert i, hbytes, ← Finset.add_sum_erase _ _ (Finset.mem_insert_self i _),
      setEngine_self, hbytes] at hreplaced
    rw [htotal, hset, hclosed]
    omega
  · rw [hclosed]
    refine forall_setEngine (P := fun j e => e.documentCacheBudgetBytes = (bounds j).budgetBytes ∧
      e.documentCacheMaxEntries = (bounds j).maxEntries) ?_ h.opened
    rw [← he]
    exact h.opened i
  · rw [hclosed]
    refine forall_setEngine (P := fun j e => e.documentCacheBytes ≤ (bounds j).budgetBytes) ?_
      h.budget
    rw [hbytes]
    exact Int.natCast_nonneg _
  · rw [hclosed]
    refine forall_setEngine (P := fun j e => e.size ≤ (bounds j).maxEntries) ?_ h.cap
    rw [hsize]
    exact Nat.zero_le _
  · have hbefore := h.totalBudget
    rw [htotal]
    omega

theorem Accounted.step (event : Event ι) : Accounted bounds totalBudgetBytes (c.step event) := by
  cases event with
  | read i key resumes decoded => exact h.read i key resumes decoded
  | lookup i key => exact (h.lookup i key).accounted
  | evict i bytes =>
    obtain ⟨hcounted, hshrunk, -⟩ := h.counted.evict i bytes
    exact h.shrink hcounted hshrunk
  | close i => exact h.close i
  | transaction i inside => exact h.setEngine (.refl _) rfl rfl rfl
  | begin i => exact h.setEngine (.refl _) rfl rfl rfl
  | commit i =>
    have hsettled : Accounted bounds totalBudgetBytes
        (c.setEngine i { c.engines i with inTransaction := false }) :=
      h.setEngine (.refl _) rfl rfl rfl
    exact hsettled.publish i
  | rollback i => exact h.setEngine (.refl _) rfl rfl rfl

end

theorem Accounted.run {events : List (Event ι)} : ∀ {c : Caches ι},
    Accounted bounds totalBudgetBytes c → Accounted bounds totalBudgetBytes (c.run events) := by
  induction events with
  | nil => exact fun {c} h => h
  | cons event events ih => exact fun {c} h => ih (h.step event)

/-- What the caches count and are bounded by. -/
structure WithinBounds (bounds : ι → DocumentCacheBounds) (totalBudgetBytes : Nat) (c : Caches ι) :
    Prop where
  bytes : ∀ i, (c.engines i).documentCacheBytes =
    ((c.engines i).documentCache.values.map (·.weight)).sum
  budget : ∀ i, (c.engines i).documentCacheBytes ≤ (bounds i).budgetBytes
  cap : ∀ i, (c.engines i).documentCache.values.length ≤ (bounds i).maxEntries
  holders : (Function.support fun i => (c.engines i).documentCacheBytes).Finite
  total : c.coordinator.bytes = ∑ᶠ i, (c.engines i).documentCacheBytes
  totalBudget : c.coordinator.bytes ≤ totalBudgetBytes

/-- After any events, of any engines in any order, the caches count what they hold, and
hold no more than their bounds. -/
theorem caches_within_bounds (bounds : ι → DocumentCacheBounds) (totalBudgetBytes : Nat)
    (events : List (Event ι)) :
    WithinBounds bounds totalBudgetBytes ((opened bounds totalBudgetBytes).run events) := by
  have h : Accounted bounds totalBudgetBytes ((opened bounds totalBudgetBytes).run events) :=
    (opened_accounted bounds totalBudgetBytes).run
  have hholders : (Function.support fun i =>
      (((opened bounds totalBudgetBytes).run events).engines i).documentCacheBytes) ⊆
        ((opened bounds totalBudgetBytes).run events).listedEngines := by
    intro i hi
    by_contra hnot
    rw [Function.mem_support, (h.counted.engines i).bytes] at hi
    exact hi (EngineCache.weightSum_of_size (h.counted.listed i hnot))
  refine ⟨fun i => (h.counted.engines i).bytes, h.budget, fun i => ?_,
    (Finset.finite_toSet _).subset hholders, ?_, h.totalBudget⟩
  · rw [JsMap.values, List.length_map]
    exact h.cap i
  · rw [h.counted.total, finsum_eq_sum_of_support_subset _ hholders]

end Caches
