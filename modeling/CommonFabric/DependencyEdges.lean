import CommonFabric.TriggerTrie
import CommonFabric.Liveness

/-!
# Edges and the order of registration

A reader that registers finds the writers of its log in the writer index, by the names of
scopes. A writer that registers finds the readers of its surface in the trigger index, by
scope instances. So the edge of a reader that registered first is made where some read of
its log names the scope instance that the write it overlaps resolves to.
-/

namespace Scheduler

variable {Action : Type} [DecidableEq Action]

namespace SchedulerWriteIndex

/-- The documents a surface names. -/
def entitiesOf (surface : List IMemorySpaceAddress) : JsSet JsString :=
  JsSet.empty.addAll (surface.map entityNameKey)

/-- The index finds an action at the documents its surface names, and nowhere else. -/
structure Indexed (index : SchedulerWriteIndex Action) : Prop where
  entities : ∀ action, index.actionWriteEntities action =
    (index.currentKnownWrites action).map entitiesOf
  writers : ∀ action entity, action ∈ index.writersByEntity entity ↔
    ∃ surface, index.currentKnownWrites action = some surface ∧
      entity ∈ surface.map entityNameKey

theorem mem_updateWriters_add {entities : List JsString} {m : JsString → JsSet Action}
    {action a : Action} {entity : JsString} :
    a ∈ updateWriters (·.add action) entities m entity ↔
      a ∈ m entity ∨ a = action ∧ entity ∈ entities := by
  induction entities generalizing m with
  | nil => simp [updateWriters]
  | cons e entities ih =>
    have hcons : updateWriters (·.add action) (e :: entities) m =
        updateWriters (·.add action) entities (Function.update m e ((m e).add action)) := rfl
    rw [hcons, ih, List.mem_cons]
    by_cases he : entity = e
    · subst he
      simp only [Function.update_self, JsSet.mem_add]
      tauto
    · simp [he]

theorem mem_updateWriters_delete {entities : List JsString} {m : JsString → JsSet Action}
    {action a : Action} {entity : JsString} :
    a ∈ updateWriters (·.delete action) entities m entity ↔
      a ∈ m entity ∧ ¬(a = action ∧ entity ∈ entities) := by
  induction entities generalizing m with
  | nil => simp [updateWriters]
  | cons e entities ih =>
    have hcons : updateWriters (·.delete action) (e :: entities) m =
        updateWriters (·.delete action) entities (Function.update m e ((m e).delete action)) :=
      rfl
    rw [hcons, ih, List.mem_cons]
    by_cases he : entity = e
    · subst he
      simp only [Function.update_self, JsSet.mem_delete]
      tauto
    · simp [he]

theorem indexed_setSurface {index : SchedulerWriteIndex Action} (h : index.Indexed)
    (action : Action) (surface : List IMemorySpaceAddress) :
    (index.setSurface action surface).Indexed := by
  have hexisting : ∀ entity, entity ∈ (index.actionWriteEntities action).getD .empty ↔
      action ∈ index.writersByEntity entity := by
    intro entity
    rw [h.entities, h.writers]
    cases index.currentKnownWrites action with
    | none => simp
    | some surface => simp [entitiesOf]
  have hwriters : ∀ a entity, a ∈ (index.setSurface action surface).writersByEntity entity ↔
      if a = action then entity ∈ surface.map entityNameKey
      else a ∈ index.writersByEntity entity := by
    intro a entity
    have hset : a ∈ (index.setSurface action surface).writersByEntity entity ↔
        a ∈ updateWriters (·.add action)
          ((entitiesOf surface).items.filter (· ∉ (index.actionWriteEntities action).getD .empty))
          (updateWriters (·.delete action)
            (((index.actionWriteEntities action).getD .empty).items.filter
              (· ∉ entitiesOf surface)) index.writersByEntity) entity := Iff.rfl
    rw [hset, mem_updateWriters_add, mem_updateWriters_delete]
    simp only [List.mem_filter, JsSet.mem_items, decide_eq_true_eq, hexisting]
    have hmem : entity ∈ entitiesOf surface ↔ entity ∈ surface.map entityNameKey := by
      rw [entitiesOf, JsSet.mem_addAll]
      simp
    rw [hmem]
    by_cases ha : a = action
    · subst ha
      rw [if_pos rfl]
      tauto
    · simp [ha]
  refine ⟨fun a => ?_, fun a entity => ?_⟩
  · by_cases ha : a = action
    · subst ha
      simp [setSurface, updateWriterIndex, entitiesOf]
    · simpa [setSurface, updateWriterIndex, ha] using h.entities a
  · rw [hwriters]
    by_cases ha : a = action
    · subst ha
      simp [setSurface, updateWriterIndex]
    · simpa [setSurface, updateWriterIndex, ha] using h.writers a entity

theorem entityNameKey_congr {read write : IMemorySpaceAddress}
    (h : sameEntity read write = true) : entityNameKey read = entityNameKey write := by
  simp only [sameEntity, Bool.and_eq_true, decide_eq_true_eq] at h
  rw [entityNameKey, entityNameKey, h.1.1, h.1.2, h.2]

omit [DecidableEq Action] in
/-- The index finds every writer whose surface a log overlaps. -/
theorem feeds_of_overlap {index : SchedulerWriteIndex Action} (h : index.Indexed)
    {writer : Action} {surface : List IMemorySpaceAddress}
    (hsurface : index.currentKnownWrites writer = some surface) {log : ReactivityLog}
    (hoverlap : readsOverlapWrites log.reads log.shallowReads surface = true) :
    index.Feeds log writer := by
  have hfound : ∀ read write, write ∈ surface → sameEntity read write = true →
      writer ∈ index.writersByEntity (entityNameKey read) := by
    intro read write hwrite hsame
    refine (h.writers _ _).2 ⟨surface, hsurface, List.mem_map.2 ⟨write, hwrite, ?_⟩⟩
    exact (entityNameKey_congr hsame).symm
  simp only [readsOverlapWrites, Bool.or_eq_true, List.any_eq_true, Bool.and_eq_true] at hoverlap
  rcases hoverlap with ⟨read, hread, write, hwrite, hsame, hpath⟩ |
    ⟨read, hread, write, hwrite, hsame, hpath⟩
  · refine .inl ⟨read, hread, hfound read write hwrite hsame, ?_⟩
    rw [overlaps, getSchedulingWrites, hsurface]
    simp only [Option.getD_some, Bool.false_eq_true, if_false, readsOverlapWrites, List.any_cons,
      List.any_nil, Bool.or_false, List.any_eq_true, Bool.and_eq_true]
    exact ⟨write, hwrite, hsame, hpath⟩
  · refine .inr ⟨read, hread, hfound read write hwrite hsame, ?_⟩
    rw [overlaps, getSchedulingWrites, hsurface]
    simp only [Option.getD_some, if_true, readsOverlapWrites, List.any_cons, List.any_nil,
      Bool.or_false, Bool.false_or, List.any_eq_true, Bool.and_eq_true]
    exact ⟨write, hwrite, hsame, hpath⟩

end SchedulerWriteIndex

/-- The paths an action has registered at an entity. -/
def pathsAt (triggerMap : TriggerMap Action) (entity : JsString) (action : Action) :
    Option SortedAndCompactPaths :=
  (triggerMap entity).bind fun t => t.pathsByAction.get action

/-- Every trie of the map holds what its record does. -/
def Held (triggerMap : TriggerMap Action) : Prop :=
  ∀ entity t, triggerMap entity = some t → t.Holds

variable {triggerMap : TriggerMap Action} {action : Action}
  {next : JsMap JsString SortedAndCompactPaths} {s : DependencyGraphState Action}

theorem triggersFor_holds (h : Held triggerMap)
    (entity : JsString) : (triggersFor triggerMap entity).Holds ∧
      ∀ action, (triggersFor triggerMap entity).pathsByAction.get action =
        pathsAt triggerMap entity action := by
  rw [triggersFor]
  cases ht : triggerMap entity with
  | none => exact ⟨EntityTriggers.holds_empty, fun action => by rw [pathsAt, ht]; rfl⟩
  | some t => exact ⟨h entity t ht, fun action => by rw [pathsAt, ht]; rfl⟩

/-- The paths of one action at one entity become those the delta has for it. -/
theorem applyDeltaAt_ok {triggerMap' : TriggerMap Action} {entity : JsString}
    (hheld : Held triggerMap)
    (h : applyDeltaAt action next triggerMap entity = .ok triggerMap') :
    Held triggerMap' ∧ ∀ e a, pathsAt triggerMap' e a =
      if e = entity ∧ a = action then next.get entity else pathsAt triggerMap e a := by
  rw [applyDeltaAt] at h
  cases hnext : next.get entity with
  | some paths =>
    rw [hnext] at h
    obtain ⟨t, hset, h⟩ := Except.bind_ok_iff.1 h
    obtain rfl := Except.ok.inj h
    obtain ⟨hholds, hfound⟩ := triggersFor_holds hheld entity
    obtain ⟨hholds', hget⟩ := EntityTriggers.set_ok hholds hset
    refine ⟨fun e t' ht' => ?_, fun e a => ?_⟩
    · by_cases he : e = entity
      · subst he
        rw [Function.update_self] at ht'
        obtain rfl := Option.some.inj ht'
        exact hholds'
      · rw [Function.update_of_ne he] at ht'
        exact hheld e t' ht'
    · rw [pathsAt]
      by_cases he : e = entity
      · subst he
        simp only [Function.update_self, Option.bind_some, hget, true_and, hfound]
      · simp [he, pathsAt]
  | none =>
    rw [hnext] at h
    dsimp only at h
    rw [removeActionFromTriggerMap] at h
    cases ht : triggerMap entity with
    | none =>
      rw [ht] at h
      obtain rfl := Except.ok.inj h
      refine ⟨hheld, fun e a => ?_⟩
      split
      case isTrue he => rw [he.1, pathsAt, ht]; rfl
      case isFalse => rfl
    | some t =>
      rw [ht] at h
      obtain ⟨t', hdelete, h⟩ := Except.bind_ok_iff.1 h
      obtain rfl := Except.ok.inj h
      obtain ⟨hholds', hget⟩ := EntityTriggers.delete_ok (hheld entity t ht) hdelete
      refine ⟨fun e t'' ht'' => ?_, fun e a => ?_⟩
      · by_cases he : e = entity
        · subst he
          rw [Function.update_self] at ht''
          split at ht''
          · cases ht''
          · obtain rfl := Option.some.inj ht''
            exact hholds'
        · rw [Function.update_of_ne he] at ht''
          exact hheld e t'' ht''
      · by_cases he : e = entity
        · subst he
          have hold : pathsAt triggerMap e a = t.pathsByAction.get a := by rw [pathsAt, ht]; rfl
          rw [hold, pathsAt, Function.update_self]
          simp only [true_and]
          rw [← hget]
          split
          case isTrue hsize =>
            -- an entity is dropped once no action reads it
            have hnil : t'.pathsByAction.entries = [] := List.length_eq_zero_iff.1 hsize
            rw [JsMap.get, hnil]
            rfl
          case isFalse => rfl
        · simp [pathsAt, he]

theorem foldlM_applyDeltaAt_ok {triggerMap' : TriggerMap Action} {entities : List JsString}
    (hheld : Held triggerMap)
    (h : entities.foldlM (applyDeltaAt action next) triggerMap = .ok triggerMap') :
    Held triggerMap' ∧ ∀ e a, pathsAt triggerMap' e a =
      if e ∈ entities ∧ a = action then next.get e else pathsAt triggerMap e a := by
  induction entities generalizing triggerMap with
  | nil =>
    obtain rfl := Except.ok.inj h
    exact ⟨hheld, by simp⟩
  | cons entity entities ih =>
    obtain ⟨m, hone, hrest⟩ := List.foldlM_cons_ok.1 h
    obtain ⟨hheld', hpaths⟩ := applyDeltaAt_ok hheld hone
    obtain ⟨hheld'', hpaths'⟩ := ih hheld' hrest
    refine ⟨hheld'', fun e a => ?_⟩
    rw [hpaths', hpaths]
    by_cases he : e = entity
    · subst he
      by_cases ha : a = action <;> simp [ha]
    · simp [he]

/-- The delta brings one action's paths from those of one log to those of the next. -/
theorem applyActionReadDeltaToMap_ok {triggerMap' : TriggerMap Action}
    {prev : JsMap JsString SortedAndCompactPaths}
    (hheld : Held triggerMap) (hprev : ∀ e, pathsAt triggerMap e action = prev.get e)
    (h : applyActionReadDeltaToMap triggerMap action prev next = .ok triggerMap') :
    Held triggerMap' ∧ ∀ e a, pathsAt triggerMap' e a =
      if a = action then next.get e else pathsAt triggerMap e a := by
  obtain ⟨hheld', hpaths⟩ := foldlM_applyDeltaAt_ok hheld h
  refine ⟨hheld', fun e a => ?_⟩
  rw [hpaths]
  by_cases ha : a = action
  · subst ha
    by_cases he : e ∈ ((JsSet.empty.addAll prev.keys).addAll next.keys).items
    · simp [he]
    · rw [JsSet.mem_items, JsSet.mem_addAll, JsSet.mem_addAll, not_or, not_or] at he
      have hnone : ∀ m : JsMap JsString SortedAndCompactPaths, e ∉ m.keys → m.get e = none := by
        intro m hm
        by_contra hsome
        obtain ⟨v, hv⟩ := Option.ne_none_iff_exists'.1 hsome
        exact hm (List.mem_map.2 ⟨(e, v), JsMap.mem_of_get hv, rfl⟩)
      have hnot : e ∉ ((JsSet.empty.addAll prev.keys).addAll next.keys).items := by
        rw [JsSet.mem_items, JsSet.mem_addAll, JsSet.mem_addAll, not_or, not_or]
        exact he
      rw [if_neg fun h => hnot h.1, if_pos rfl, hprev, hnone prev he.2.1, hnone next he.1]
  · simp [ha]

/-- Each address is grouped under the instance it names. -/
theorem mem_addressesToPathByEntity {addresses : List IMemorySpaceAddress}
    {identity : ScopeKeyIdentity} {map : JsMap JsString SortedAndCompactPaths}
    (h : addressesToPathByEntity addresses identity = .ok map) {address : IMemorySpaceAddress}
    (hmem : address ∈ addresses) {key : JsString} (hkey : entityKey address identity = .ok key) :
    address.path ∈ (map.get key).getD [] := by
  have hloop : ∀ (todo : List IMemorySpaceAddress) (m : JsMap JsString SortedAndCompactPaths),
      todo.foldlM (fun map address => do
        let key ← entityKey address identity
        .ok (map.set key ((map.get key).getD [] ++ [address.path]))) m = .ok map →
      (∀ k p, p ∈ (m.get k).getD [] → p ∈ (map.get k).getD []) ∧
        (address ∈ todo → address.path ∈ (map.get key).getD []) := by
    intro todo
    induction todo with
    | nil =>
      intro m hm
      obtain rfl := Except.ok.inj hm
      exact ⟨fun _ _ => id, fun h => by cases h⟩
    | cons x todo ih =>
      intro m hm
      obtain ⟨m', hone, hrest⟩ := List.foldlM_cons_ok.1 hm
      obtain ⟨k, hk, hone⟩ := Except.bind_ok_iff.1 hone
      obtain rfl := Except.ok.inj hone
      obtain ⟨hkeep, hin⟩ := ih _ hrest
      refine ⟨fun k' p hp => hkeep k' p ?_, fun hx => ?_⟩
      · rw [JsMap.get_set]
        split
        case isTrue heq =>
          subst heq
          exact List.mem_append_left _ hp
        case isFalse => exact hp
      · rcases List.mem_cons.1 hx with rfl | hx
        · obtain rfl := Except.ok.inj (hk.symm.trans hkey)
          refine hkeep k _ ?_
          rw [JsMap.get_set_self]
          simp
        · exact hin hx
  exact (hloop addresses .empty h).2 hmem

/-- The log an action is registered under; without one it reads nothing. -/
def DependencyGraphState.log (s : DependencyGraphState Action) (action : Action) : ReactivityLog :=
  (s.dependencies action).getD ⟨[], []⟩

/-- The triggers registered for every action are those of its log. -/
structure TriggersMatch (s : DependencyGraphState Action) : Prop where
  held : Held s.triggerIndex.triggers
  nonRecursiveHeld : Held s.triggerIndex.nonRecursiveTriggers
  reads : ∀ a, ∃ map, addressesToPathByEntity (s.log a).reads s.scopeKeyIdentity = .ok map ∧
    ∀ e, pathsAt s.triggerIndex.triggers e a = map.get e
  shallowReads : ∀ a, ∃ map,
    addressesToPathByEntity (s.log a).shallowReads s.scopeKeyIdentity = .ok map ∧
      ∀ e, pathsAt s.triggerIndex.nonRecursiveTriggers e a = map.get e

theorem mem_foldl_addAll {visits : List (List JsString × JsSet Action)} {readers : JsSet Action}
    {a : Action} :
    a ∈ visits.foldl (fun readers v => readers.addAll v.2.items) readers ↔
      a ∈ readers ∨ ∃ v ∈ visits, a ∈ v.2 := by
  induction visits generalizing readers with
  | nil => simp
  | cons v visits ih =>
    rw [List.foldl_cons, ih, JsSet.mem_addAll, JsSet.mem_items]
    simp only [List.mem_cons, exists_eq_or_imp]
    tauto

/-- A read and a write that name the same scope instance of the same document. -/
def sameInstance (identity : ScopeKeyIdentity) (read write : IMemorySpaceAddress) : Prop :=
  sameEntity read write = true ∧ scopeInstance read identity = scopeInstance write identity

theorem entityKey_congr {identity : ScopeKeyIdentity} {read write : IMemorySpaceAddress}
    (h : sameInstance identity read write) : entityKey read identity = entityKey write identity := by
  obtain ⟨hsame, hinstance⟩ := h
  simp only [sameEntity, Bool.and_eq_true, decide_eq_true_eq] at hsame
  rw [entityKey, entityKey, hinstance, hsame.1.1, hsame.1.2]

/-- Whether a write reaches a log at an instance the log reads. -/
def Reaches (identity : ScopeKeyIdentity) (log : ReactivityLog) (write : IMemorySpaceAddress) :
    Prop :=
  (∃ read ∈ log.reads, sameInstance identity read write ∧
    arraysOverlap write.path read.path = true) ∨
  ∃ read ∈ log.shallowReads, sameInstance identity read write ∧
    nonRecursiveReadMayOverlapWrite read.path write.path = true

/-- The trigger index finds the readers that a write reaches. -/
theorem mem_collectReadersForWrite (h : TriggersMatch s)
    {write : IMemorySpaceAddress} {readers : JsSet Action}
    (hcollect : collectReadersForWrite s.triggerIndex s.scopeKeyIdentity write = .ok readers)
    {reader : Action} (hreach : Reaches s.scopeKeyIdentity (s.log reader) write) :
    reader ∈ readers := by
  rw [collectReadersForWrite] at hcollect
  obtain ⟨entity, hentity, hcollect⟩ := Except.bind_ok_iff.1 hcollect
  obtain rfl := Except.ok.inj hcollect
  rw [mem_foldl_addAll]
  right
  have hfound : ∀ (triggerMap : TriggerMap Action) (addresses : List IMemorySpaceAddress)
      (map : JsMap JsString SortedAndCompactPaths), Held triggerMap →
      addressesToPathByEntity addresses s.scopeKeyIdentity = .ok map →
      (∀ e, pathsAt triggerMap e reader = map.get e) → ∀ read ∈ addresses,
      sameInstance s.scopeKeyIdentity read write → arraysOverlap read.path write.path = true →
      ∃ t, triggerMap entity = some t ∧
        PathNode.Visited (t.forEachMatching write.path) read.path reader := by
    intro triggerMap addresses map hheld hmap hpaths read hread hsame hoverlap
    have hmem := mem_addressesToPathByEntity hmap hread ((entityKey_congr hsame).trans hentity)
    rw [← hpaths] at hmem
    cases ht : triggerMap entity with
    | none => simp [pathsAt, ht] at hmem
    | some t =>
      refine ⟨t, rfl, (EntityTriggers.visited_forEachMatching (hheld entity t ht) _ _ _).2
        ⟨?_, hoverlap⟩⟩
      simpa [pathsAt, ht] using hmem
  rcases hreach with ⟨read, hread, hsame, hpath⟩ | ⟨read, hread, hsame, hpath⟩
  · obtain ⟨map, hmap, hpaths⟩ := h.reads reader
    obtain ⟨t, ht, v, hv, _, hmem⟩ := hfound _ _ map h.held hmap hpaths read hread hsame
      (arraysOverlap_comm _ _ ▸ hpath)
    exact ⟨v, by simp [ht, hv], hmem⟩
  · obtain ⟨map, hmap, hpaths⟩ := h.shallowReads reader
    have hoverlap : arraysOverlap read.path write.path = true := by
      simp only [nonRecursiveReadMayOverlapWrite, Bool.and_eq_true] at hpath
      exact arraysOverlap_comm _ _ ▸ hpath.2
    obtain ⟨t, ht, v, hv, hvpath, hmem⟩ := hfound _ _ map h.nonRecursiveHeld hmap hpaths read hread
      hsame hoverlap
    exact ⟨v, by simp [ht, hv, hvpath, hpath], hmem⟩

inductive Registration (Action : Type) where
  /-- A writer's surface: `setSurface` and `registerDependentsForWriterSurface`. -/
  | setSurface (action : Action) (surface : List IMemorySpaceAddress)
  /-- A reader's log: `updateDependentEdgesForLog` and the registration of its triggers. -/
  | setLog (action : Action) (log : ReactivityLog)

def Registration.apply (s : DependencyGraphState Action) :
    Registration Action → Except EngineError (DependencyGraphState Action)
  | .setSurface action surface => s.registerSurface action surface
  | .setLog action log => s.updateActionLog action log

/-- Every reader has an edge from every writer whose surface its log overlaps, and readers and
writers name each other. -/
structure EdgesMatch (s : DependencyGraphState Action) : Prop where
  edge : ∀ reader writer log surface, s.dependencies reader = some log →
    s.writeIndex.currentKnownWrites writer = some surface → reader ≠ writer →
    readsOverlapWrites log.reads log.shallowReads surface = true →
    reader ∈ s.dependents writer ∧ writer ∈ s.reverseDependencies reader
  inverse : ∀ reader writer, reader ∈ s.dependents writer ↔ writer ∈ s.reverseDependencies reader

/-- Whoever registered before a surface and overlaps it reads an instance that it writes. -/
def Registration.InstancesAgree (s : DependencyGraphState Action) : Registration Action → Prop
  | .setSurface action surface => ∀ reader log, s.dependencies reader = some log → reader ≠ action →
      readsOverlapWrites log.reads log.shallowReads surface = true →
      ∃ write ∈ surface, Reaches s.scopeKeyIdentity log write
  | .setLog _ _ => True

/-- A condition of each step of a run, in the state the step is made in. -/
def Throughout (condition : DependencyGraphState Action → Registration Action → Prop)
    (s : DependencyGraphState Action) : List (Registration Action) → Prop
  | [] => True
  | registration :: rest => condition s registration ∧
      ∀ s', registration.apply s = .ok s' → Throughout condition s' rest

/-- What holds between the registrations. -/
structure Registered (s : DependencyGraphState Action) : Prop where
  indexed : s.writeIndex.Indexed
  triggers : TriggersMatch s
  settled : s.Settled
  edge : ∀ reader writer log surface, s.dependencies reader = some log →
    s.writeIndex.currentKnownWrites writer = some surface → reader ≠ writer →
    readsOverlapWrites log.reads log.shallowReads surface = true → reader ∈ s.dependents writer

theorem mem_dependents_foldl_readers {writer : Action} {readers : List Action} {a r : Action} :
    r ∈ (readers.foldl (fun s reader => s.registerDependentEdge writer reader) s).dependents a ↔
      r ∈ s.dependents a ∨ r ≠ writer ∧ a = writer ∧ r ∈ readers := by
  induction readers generalizing s with
  | nil => simp
  | cons d readers ih =>
    rw [List.foldl_cons, ih, DependencyGraphState.mem_dependents_registerDependentEdge,
      List.mem_cons]
    constructor
    · rintro ((h | ⟨hne, rfl, rfl⟩) | ⟨hne, rfl, hmem⟩)
      · exact .inl h
      · exact .inr ⟨hne.symm, rfl, .inl rfl⟩
      · exact .inr ⟨hne, rfl, .inr hmem⟩
    · rintro (h | ⟨hne, rfl, rfl | hmem⟩)
      · exact .inl (.inl h)
      · exact .inl (.inr ⟨hne.symm, rfl, rfl⟩)
      · exact .inr ⟨hne, rfl, hmem⟩

/-- All that an edge operation may touch. -/
def OnlyEdges (s s' : DependencyGraphState Action) : Prop :=
  ∃ dependents reverseDependencies nodes, s' = { s with
    dependents := dependents, reverseDependencies := reverseDependencies, nodes := nodes }

omit [DecidableEq Action] in
theorem onlyEdges_foldl {β : Type}
    (turn : DependencyGraphState Action → β → DependencyGraphState Action)
    (hturn : ∀ s b, OnlyEdges s (turn s b)) (todo : List β) (s : DependencyGraphState Action) :
    OnlyEdges s (todo.foldl turn s) := by
  induction todo generalizing s with
  | nil => exact ⟨_, _, _, rfl⟩
  | cons b todo ih =>
    obtain ⟨d, r, n, hturn⟩ := hturn s b
    obtain ⟨d', r', n', hrest⟩ := ih (turn s b)
    refine ⟨d', r', n', ?_⟩
    rw [List.foldl_cons, hrest, hturn]

theorem onlyEdges_registerDependentEdge (s : DependencyGraphState Action)
    (writer dependent : Action) : OnlyEdges s (s.registerDependentEdge writer dependent) := by
  by_cases hne : writer = dependent
  · rw [DependencyGraphState.registerDependentEdge, if_pos hne]
    exact ⟨_, _, _, rfl⟩
  · obtain ⟨nodes, h⟩ := DependencyGraphState.onlyNodes_registerDependentEdge s hne
    exact ⟨_, _, nodes, h⟩

theorem onlyEdges_updateDependentEdgesForLog (s : DependencyGraphState Action) (action : Action)
    (log : ReactivityLog) : OnlyEdges s (s.updateDependentEdgesForLog action log) := by
  have hremove := onlyEdges_foldl
    (fun s dependency => s.unregisterDependentEdge dependency action)
    (fun s w => by
      obtain ⟨nodes, h⟩ := DependencyGraphState.onlyNodes_unregisterDependentEdge s w action
      exact ⟨_, _, nodes, h⟩)
    ((s.reverseDependencies action).items.filter
      (· ∉ s.collectReverseDependenciesForLog action log)) s
  obtain ⟨d, r, n, hremove⟩ := hremove
  obtain ⟨d', r', n', hadd⟩ := onlyEdges_foldl
    (fun s dependency => s.registerDependentEdge dependency action)
    (fun s w => onlyEdges_registerDependentEdge s w action)
    ((s.collectReverseDependenciesForLog action log).items.filter
      (· ∉ s.reverseDependencies action)) _
  rw [DependencyGraphState.updateDependentEdgesForLog, hadd, hremove]
  exact ⟨_, _, _, rfl⟩

theorem applyActionReadDelta_ok (h : TriggersMatch s) {log : ReactivityLog}
    {triggerIndex : SchedulerTriggerIndex Action}
    (hdelta : applyActionReadDelta s.triggerIndex s.scopeKeyIdentity action (s.log action) log =
      .ok triggerIndex) :
    TriggersMatch { s with
      dependencies := Function.update s.dependencies action (some log)
      triggerIndex := triggerIndex } := by
  rw [applyActionReadDelta] at hdelta
  obtain ⟨prev, hprev, hdelta⟩ := Except.bind_ok_iff.1 hdelta
  obtain ⟨next, hnext, hdelta⟩ := Except.bind_ok_iff.1 hdelta
  obtain ⟨prevShallow, hprevShallow, hdelta⟩ := Except.bind_ok_iff.1 hdelta
  obtain ⟨nextShallow, hnextShallow, hdelta⟩ := Except.bind_ok_iff.1 hdelta
  obtain ⟨triggers, htriggers, hdelta⟩ := Except.bind_ok_iff.1 hdelta
  obtain ⟨nonRecursive, hnonRecursive, hdelta⟩ := Except.bind_ok_iff.1 hdelta
  obtain rfl := Except.ok.inj hdelta
  obtain ⟨map, hmap, hpaths⟩ := h.reads action
  obtain ⟨mapShallow, hmapShallow, hpathsShallow⟩ := h.shallowReads action
  obtain rfl := Except.ok.inj (hmap.symm.trans hprev)
  obtain rfl := Except.ok.inj (hmapShallow.symm.trans hprevShallow)
  obtain ⟨hheld, hnow⟩ := applyActionReadDeltaToMap_ok h.held hpaths htriggers
  obtain ⟨hheldShallow, hnowShallow⟩ :=
    applyActionReadDeltaToMap_ok h.nonRecursiveHeld hpathsShallow hnonRecursive
  refine ⟨hheld, hheldShallow, fun a => ?_, fun a => ?_⟩
  · by_cases ha : a = action
    · subst ha
      refine ⟨next, ?_, fun e => by rw [hnow, if_pos rfl]⟩
      simpa [DependencyGraphState.log] using hnext
    · obtain ⟨map', hmap', hpaths'⟩ := h.reads a
      refine ⟨map', ?_, fun e => by rw [hnow, if_neg ha, hpaths']⟩
      simpa [DependencyGraphState.log, ha] using hmap'
  · by_cases ha : a = action
    · subst ha
      refine ⟨nextShallow, ?_, fun e => by rw [hnowShallow, if_pos rfl]⟩
      simpa [DependencyGraphState.log] using hnextShallow
    · obtain ⟨map', hmap', hpaths'⟩ := h.shallowReads a
      refine ⟨map', ?_, fun e => by rw [hnowShallow, if_neg ha, hpaths']⟩
      simpa [DependencyGraphState.log, ha] using hmap'

/-- The registration of a log keeps the edges that are due. -/
theorem registered_updateActionLog {s' : DependencyGraphState Action} (h : Registered s)
    {log : ReactivityLog} (hs : s.updateActionLog action log = .ok s') :
    Registered s' := by
  have hsettled' := DependencyGraphState.updateActionLog_settled h.settled hs
  rw [DependencyGraphState.updateActionLog] at hs
  obtain ⟨triggerIndex, hdelta, hs⟩ := Except.bind_ok_iff.1 hs
  have hedges : ∀ a r, r ∈ (DependencyGraphState.updateDependentEdgesForLog
      { s with dependencies := Function.update s.dependencies action (some log) } action log
      ).dependents a ↔ if r = action then a ∈ s.collectReverseDependenciesForLog action log
      else r ∈ s.dependents a := fun a r =>
    DependencyGraphState.mem_dependents_updateDependentEdgesForLog
      (s := { s with dependencies := Function.update s.dependencies action (some log) })
      fun w => h.settled.coherent.inverse w action
  obtain ⟨d, r, n, honly⟩ := onlyEdges_updateDependentEdgesForLog
    { s with dependencies := Function.update s.dependencies action (some log) } action log
  rw [honly] at hs hdelta hedges
  obtain rfl := Except.ok.inj hs
  refine ⟨h.indexed, ?_, hsettled', fun reader writer log' surface hlog hsurface hne hoverlap => ?_⟩
  · have htriggers := applyActionReadDelta_ok h.triggers hdelta
    exact ⟨htriggers.held, htriggers.nonRecursiveHeld, htriggers.reads, htriggers.shallowReads⟩
  · refine (hedges writer reader).2 ?_
    by_cases hreader : reader = action
    · subst hreader
      obtain rfl : log = log' := by simpa using hlog
      rw [if_pos rfl]
      exact DependencyGraphState.mem_collectReverseDependenciesForLog.2
        ⟨hne.symm, SchedulerWriteIndex.feeds_of_overlap h.indexed hsurface hoverlap⟩
    · rw [if_neg hreader]
      refine h.edge reader writer log' surface ?_ hsurface hne hoverlap
      simpa [hreader] using hlog

/-- The registration of a surface makes the edges that are due, where the instances agree. -/
theorem registered_registerSurface {s' : DependencyGraphState Action} (h : Registered s)
    {surface : List IMemorySpaceAddress}
    (hagree : Registration.InstancesAgree s (.setSurface action surface))
    (hs : s.registerSurface action surface = .ok s') : Registered s' := by
  have hsettled' := DependencyGraphState.registerSurface_settled h.settled hs
  rw [DependencyGraphState.registerSurface, DependencyGraphState.registerDependentsForWriterSurface]
    at hs
  obtain ⟨readers, hreaders, hs⟩ := Except.bind_ok_iff.1 hs
  -- the readers collected are those of every write
  have hcollected : ∀ reader write, write ∈ surface →
      Reaches s.scopeKeyIdentity (s.log reader) write → reader ∈ readers := by
    have hloop : ∀ (todo : List IMemorySpaceAddress) (found : JsSet Action),
        todo.foldlM (fun readers write => do
          let found ← collectReadersForWrite s.triggerIndex s.scopeKeyIdentity write
          .ok (readers.addAll found.items)) found = .ok readers →
        (∀ a ∈ found, a ∈ readers) ∧ ∀ reader write, write ∈ todo →
          Reaches s.scopeKeyIdentity (s.log reader) write → reader ∈ readers := by
      intro todo
      induction todo with
      | nil =>
        intro found hfound
        obtain rfl := Except.ok.inj hfound
        exact ⟨fun _ => id, fun _ _ hw => by cases hw⟩
      | cons w todo ih =>
        intro found hfound
        obtain ⟨found', hone, hrest⟩ := List.foldlM_cons_ok.1 hfound
        obtain ⟨new, hcollect, hone⟩ := Except.bind_ok_iff.1 hone
        obtain rfl := Except.ok.inj hone
        obtain ⟨hkeep, hin⟩ := ih _ hrest
        refine ⟨fun a ha => hkeep a (JsSet.mem_addAll.2 (.inr ha)), fun reader write hw hreach => ?_⟩
        rcases List.mem_cons.1 hw with rfl | hw
        · exact hkeep reader (JsSet.mem_addAll.2
            (.inl (mem_collectReadersForWrite h.triggers hcollect hreach)))
        · exact hin reader write hw hreach
    exact (hloop surface .empty hreaders).2
  obtain rfl := Except.ok.inj hs
  have hedges : ∀ a r, r ∈ ((readers.delete action).items.foldl
      (fun (s : DependencyGraphState Action) reader => s.registerDependentEdge action reader)
      { s with writeIndex := s.writeIndex.setSurface action surface }).dependents a ↔
      r ∈ s.dependents a ∨ r ≠ action ∧ a = action ∧ r ∈ (readers.delete action).items :=
    fun a r => mem_dependents_foldl_readers
  obtain ⟨d, r, n, honly⟩ := onlyEdges_foldl
    (fun s reader => s.registerDependentEdge action reader)
    (fun s reader => onlyEdges_registerDependentEdge s action reader)
    (readers.delete action).items { s with writeIndex := s.writeIndex.setSurface action surface }
  rw [honly] at hedges hsettled' ⊢
  refine ⟨SchedulerWriteIndex.indexed_setSurface h.indexed action surface,
    ⟨h.triggers.held, h.triggers.nonRecursiveHeld, h.triggers.reads, h.triggers.shallowReads⟩,
    hsettled', fun reader writer log' surface' hlog hsurface hne hoverlap => ?_⟩
  refine (hedges writer reader).2 ?_
  by_cases hwriter : writer = action
  · subst hwriter
    obtain rfl : surface = surface' := by
      simpa [SchedulerWriteIndex.setSurface, SchedulerWriteIndex.updateWriterIndex] using hsurface
    obtain ⟨write, hwrite, hreach⟩ := hagree reader log' hlog hne hoverlap
    have hlog' : s.log reader = log' := by rw [DependencyGraphState.log, hlog]; rfl
    exact .inr ⟨hne, rfl, JsSet.mem_delete.2 ⟨hne, hcollected reader write hwrite (hlog' ▸ hreach)⟩⟩
  · left
    refine h.edge reader writer log' surface' hlog ?_ hne hoverlap
    simpa [SchedulerWriteIndex.setSurface, SchedulerWriteIndex.updateWriterIndex, hwriter]
      using hsurface

theorem registered_init (identity : ScopeKeyIdentity) :
    Registered (DependencyGraphState.init identity : DependencyGraphState Action) := by
  have hnone : Held (fun _ => none : TriggerMap Action) := fun _ _ ht => nomatch ht
  refine ⟨⟨fun _ => rfl, fun action entity => ?_⟩, ⟨hnone, hnone,
    fun _ => ⟨.empty, rfl, fun _ => rfl⟩, fun _ => ⟨.empty, rfl, fun _ => rfl⟩⟩,
    init_settled identity, fun _ _ _ _ hlog => nomatch hlog⟩
  refine iff_of_false (JsSet.not_mem_empty action) ?_
  rintro ⟨_, hsurface, _⟩
  cases hsurface

theorem registered_run {s' : DependencyGraphState Action} (h : Registered s)
    {registrations : List (Registration Action)}
    (hagree : Throughout Registration.InstancesAgree s registrations)
    (hs : registrations.foldlM Registration.apply s = .ok s') : Registered s' := by
  induction registrations generalizing s with
  | nil =>
    obtain rfl := Except.ok.inj hs
    exact h
  | cons registration rest ih =>
    obtain ⟨s₁, hone, hrest⟩ := List.foldlM_cons_ok.1 hs
    refine ih ?_ (hagree.2 s₁ hone) hrest
    cases registration with
    | setSurface action surface => exact registered_registerSurface h hagree.1 hone
    | setLog action log => exact registered_updateActionLog h hone

theorem Registered.edgesMatch (h : Registered s) :
    EdgesMatch s :=
  ⟨fun reader writer log surface hlog hsurface hne hoverlap =>
      have hedge := h.edge reader writer log surface hlog hsurface hne hoverlap
      ⟨hedge, (h.settled.coherent.inverse writer reader).1 hedge⟩,
    fun reader writer => h.settled.coherent.inverse writer reader⟩

/-- Whatever the order of the registrations, the edges are those the logs and the surfaces
give, where each surface is registered after no reader of another instance alone. -/
theorem edges_of_registrations (identity : ScopeKeyIdentity)
    (registrations : List (Registration Action)) (s : DependencyGraphState Action)
    (hrun : registrations.foldlM Registration.apply (DependencyGraphState.init identity) = .ok s)
    (hagree : Throughout Registration.InstancesAgree (DependencyGraphState.init identity)
      registrations) : EdgesMatch s :=
  (registered_run (registered_init identity) hagree hrun).edgesMatch

def aliceIdentity : ScopeKeyIdentity := ⟨some "did:key:alice", some "session"⟩

def userWrite : IMemorySpaceAddress := ⟨"did:key:home", "of:draft", some .user, none, ["value"]⟩

/-- The log of a run that read the user's own instance, or that of a named one. -/
def userLog (scopeKey : Option ScopeKey) : ReactivityLog :=
  ⟨[⟨"did:key:home", "of:draft", some .user, scopeKey, ["value"]⟩], []⟩

theorem dependencies_updateActionLog {s s' : DependencyGraphState Action} {action : Action}
    {log : ReactivityLog} (hs : s.updateActionLog action log = .ok s') :
    s'.dependencies = Function.update s.dependencies action (some log) ∧
      s'.scopeKeyIdentity = s.scopeKeyIdentity := by
  rw [DependencyGraphState.updateActionLog] at hs
  obtain ⟨triggerIndex, _, hs⟩ := Except.bind_ok_iff.1 hs
  obtain ⟨d, r, n, honly⟩ := onlyEdges_updateDependentEdgesForLog
    { s with dependencies := Function.update s.dependencies action (some log) } action log
  rw [honly] at hs
  obtain rfl := Except.ok.inj hs
  exact ⟨rfl, rfl⟩

theorem edges_of_registrations_user :
    ∃ s : DependencyGraphState Nat,
      [Registration.setLog 0 (userLog none), .setSurface 1 [userWrite]].foldlM Registration.apply
        (DependencyGraphState.init aliceIdentity) = .ok s ∧ EdgesMatch s := by
  have hrun : ([Registration.setLog 0 (userLog none), .setSurface 1 [userWrite]].foldlM
      Registration.apply (DependencyGraphState.init aliceIdentity :
        DependencyGraphState Nat)).toOption.isSome = true := by decide +kernel
  cases hs : [Registration.setLog 0 (userLog none), .setSurface 1 [userWrite]].foldlM
      Registration.apply (DependencyGraphState.init aliceIdentity : DependencyGraphState Nat) with
  | error e =>
    rw [hs] at hrun
    cases hrun
  | ok s =>
    refine ⟨s, rfl, edges_of_registrations aliceIdentity _ s hs
      ⟨trivial, fun s' hs' => ⟨fun reader log hlog hne hoverlap => ?_, fun _ _ => trivial⟩⟩⟩
    obtain ⟨hdependencies, hidentity⟩ := dependencies_updateActionLog hs'
    rw [hdependencies] at hlog
    by_cases hreader : reader = 0
    · subst hreader
      rw [Function.update_self] at hlog
      obtain rfl := Option.some.inj hlog
      refine ⟨userWrite, List.mem_singleton_self _, .inl ⟨_, List.mem_singleton_self _, ?_⟩⟩
      rw [hidentity]
      exact ⟨⟨by decide +kernel, by decide +kernel⟩, by decide +kernel⟩
    · rw [Function.update_of_ne hreader] at hlog
      cases hlog

/-- A reader of another user's instance, registered before the writer, has no edge from it. -/
theorem edges_lost_across_instances :
    ¬∀ (identity : ScopeKeyIdentity) (registrations : List (Registration Nat))
      (s : DependencyGraphState Nat),
      registrations.foldlM Registration.apply (DependencyGraphState.init identity) = .ok s →
        EdgesMatch s := by
  intro h
  have hfacts : ([Registration.setLog 0 (userLog (some "user:did%3Akey%3Abob")),
      .setSurface 1 [userWrite]].foldlM Registration.apply
        (DependencyGraphState.init aliceIdentity : DependencyGraphState Nat)).toOption.map
      (fun s => ((s.dependents 1).has 0, s.dependencies 0,
        s.writeIndex.currentKnownWrites 1)) =
      some (false, some (userLog (some "user:did%3Akey%3Abob")), some [userWrite]) := by
    decide +kernel
  cases hs : [Registration.setLog 0 (userLog (some "user:did%3Akey%3Abob")),
      .setSurface 1 [userWrite]].foldlM Registration.apply
        (DependencyGraphState.init aliceIdentity : DependencyGraphState Nat) with
  | error e =>
    rw [hs] at hfacts
    cases hfacts
  | ok s =>
    rw [hs] at hfacts
    have hfacts' := Option.some.inj hfacts
    simp only [Prod.mk.injEq] at hfacts'
    obtain ⟨hnot, hlog, hsurface⟩ := hfacts'
    have hedge := (h aliceIdentity _ s hs).edge 0 1 _ _ hlog hsurface (by decide) (by decide +kernel)
    rw [JsSet.has_iff.2 hedge.1] at hnot
    cases hnot

end Scheduler
